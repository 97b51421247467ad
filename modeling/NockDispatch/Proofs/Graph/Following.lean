import NockDispatch.Proofs.Graph.Growth

/-!
# Computations on ids and on nouns

A computation that works on a graph can be told again of nouns alone. `Follows` says that the
first keeps step with the second from every graph that extends a given one: the states at
the end are tied again, products are related in the graph that is left, and errors are equal.
Following is closed under sequencing.
-/

namespace NockDispatch

/-- How states of a computation on a graph are tied to states of the computation on nouns. -/
structure Ties (σ τ : Type) where
  graph : σ → Graph
  Tied : σ → τ → Prop
  wellFormed {s t} : Tied s t → (graph s).WellFormed

variable {ε σ τ α β γ δ : Type}

/-- The ends of two computations agree, and the graph that is left extends `g`. -/
inductive Agree (T : Ties σ τ) (g : Graph) (rel : Graph → α → β → Prop) :
    EStateM.Result ε σ α → EStateM.Result ε τ β → Prop
  | ok {x y s t} : T.Tied s t → g.Extends (T.graph s) → rel (T.graph s) x y →
      Agree T g rel (.ok x s) (.ok y t)
  | error {e s t} : T.Tied s t → g.Extends (T.graph s) → Agree T g rel (.error e s) (.error e t)

/-- A computation on a graph keeps step with one on nouns, from any graph that extends `g`. -/
def Follows (T : Ties σ τ) (g : Graph) (rel : Graph → α → β → Prop)
    (act : EStateM ε σ α) (model : EStateM ε τ β) : Prop :=
  ∀ s t, T.Tied s t → g.Extends (T.graph s) → Agree T g rel (act s) (model t)

variable {T : Ties σ τ} {g : Graph} {rel : Graph → α → β → Prop} {rel' : Graph → γ → δ → Prop}

theorem Agree.weaken {h : Graph} (hgh : g.Extends h) {x : EStateM.Result ε σ α}
    {y : EStateM.Result ε τ β} (ha : Agree T h rel x y) : Agree T g rel x y := by
  cases ha with
  | ok ht hg hr => exact .ok ht (hgh.trans hg) hr
  | error ht hg => exact .error ht (hgh.trans hg)

namespace Follows

theorem bind {act : EStateM ε σ α} {model : EStateM ε τ β} {next : α → EStateM ε σ γ}
    {next' : β → EStateM ε τ δ} (ha : Follows T g rel act model)
    (hn : ∀ h x y, g.Extends h → rel h x y → Follows T h rel' (next x) (next' y)) :
    Follows T g rel' (act >>= next) (model >>= next') := by
  intro s t ht hg
  have hfirst := ha s t ht hg
  change Agree T g rel' (EStateM.bind act next s) (EStateM.bind model next' t)
  unfold EStateM.bind
  generalize act s = first at hfirst
  generalize model t = first' at hfirst
  cases hfirst with
  | ok ht' hg' hr => exact (hn _ _ _ hg' hr _ _ ht' (.refl _)).weaken hg'
  | error ht' hg' => exact .error ht' hg'

theorem pure {x : α} {y : β} (hr : ∀ h, g.Extends h → rel h x y) :
    Follows T g rel (Pure.pure x : EStateM ε σ α) (Pure.pure y) :=
  fun s _ ht hg => .ok ht hg (hr (T.graph s) hg)

theorem throw (e : ε) :
    Follows T g rel (MonadExcept.throw e : EStateM ε σ α) (MonadExcept.throw e : EStateM ε τ β) :=
  fun _ _ ht hg => .error ht hg

theorem look {act : EStateM ε σ γ} {x : γ} {next : γ → EStateM ε σ α} {model : EStateM ε τ β}
    (hl : ∀ s, g.Extends (T.graph s) → (T.graph s).WellFormed → act s = .ok x s)
    (hn : Follows T g rel (next x) model) : Follows T g rel (act >>= next) model := by
  intro s t ht hg
  change Agree T g rel (EStateM.bind act next s) (model t)
  rw [EStateM.bind, hl s hg (T.wellFormed ht)]
  exact hn s t ht hg

theorem fail {act : EStateM ε σ γ} {e : ε} {next : γ → EStateM ε σ α}
    (hl : ∀ s, g.Extends (T.graph s) → act s = .error e s) :
    Follows T g rel (act >>= next) (MonadExcept.throw (m := EStateM ε τ) e) := by
  intro s t ht hg
  change Agree T g rel (EStateM.bind act next s) (.error e t)
  rw [EStateM.bind, hl s hg]
  exact .error ht hg

end Follows

/-! ## What is left at the end -/

def outcome : EStateM.Result ε τ α → Except ε α
  | .ok a _ => .ok a
  | .error e _ => .error e

/-- The end of a computation on a graph, read as a noun or an error. -/
inductive Means : Except ε NodeId × Graph → Except ε Noun → Prop
  | ok {g p a} : g.Denotes p a → Means (.ok p, g) (.ok a)
  | error {g e} : Means (.error e, g) (.error e)

/-- Two computations end with products that denote the same noun, or with the same error. -/
def SameOutcome (left left' : Except ε NodeId × Graph) : Prop :=
  ∃ o, Means left o ∧ Means left' o

namespace Graph

/-- The end of a computation of nouns, found again in a graph: all that was stored is there,
and the product has an id. -/
inductive Leaves (stored : τ → List Noun) (g : Graph) :
    EStateM.Result ε τ Noun → Except ε NodeId × Graph → Prop
  | ok {id a t} : (g.putAll (stored t)).Denotes id a →
      Leaves stored g (.ok a t) (.ok id, g.putAll (stored t))
  | error {e t} : Leaves stored g (.error e t) (.error e, g.putAll (stored t))

variable {stored : τ → List Noun} {model : EStateM.Result ε τ Noun}
  {left left' : Except ε NodeId × Graph}

theorem Leaves.grows (wf : g.WellFormed) (hl : g.Leaves stored model left) : g.Grows left.2 := by
  cases hl with
  | ok _ => exact grows_putAll wf _
  | error => exact grows_putAll wf _

theorem Leaves.denotes (hl : g.Leaves stored model left) {id : NodeId} (hid : left.1 = .ok id) :
    ∃ a, left.2.Denotes id a := by
  cases hl with
  | ok hd =>
    cases hid
    exact ⟨_, hd⟩
  | error => cases hid

theorem Leaves.means (hl : g.Leaves stored model left) : Means left (outcome model) := by
  cases hl with
  | ok hd => exact .ok hd
  | error => exact .error

/-- The same computation in a graph that has grown since gives the same and stores nothing. -/
theorem Leaves.again {h : Graph} (wf : g.WellFormed) (hl : g.Leaves stored model left)
    (wf' : h.WellFormed) (hext : left.2.Extends h) (hl' : h.Leaves stored model left') :
    left' = (left.1, h) := by
  cases hl with
  | ok hd =>
    cases hl' with
    | ok hd' =>
      have hsame := putAll_again wf wf' hext
      rw [hsame] at hd' ⊢
      rw [hd'.injective wf' (hd.extend hext)]
  | error =>
    cases hl'
    rw [putAll_again wf wf' hext]

end Graph

section

variable {left left' : Except ε NodeId × Graph} {p : NodeId} {a : Noun} {o o' : Except ε Noun}

theorem Means.functional (h : Means left o) (h' : Means left o') : o = o' := by
  cases h with
  | ok hd =>
    cases h' with
    | ok hd' => rw [hd.functional hd']
  | error =>
    cases h'
    rfl

theorem Means.eq_ok (h : Means left (.ok a)) : ∃ p, left.1 = .ok p := by
  cases h with
  | ok hd => exact ⟨_, rfl⟩

theorem Means.ok_iff (h : Means left o) :
    (∃ p, left.1 = .ok p ∧ left.2.Denotes p a) ↔ o = .ok a := by
  constructor
  · rintro ⟨p, hp, hd⟩
    cases h with
    | ok hd' =>
      cases hp
      rw [hd'.functional hd]
    | error => cases hp
  · rintro rfl
    cases h with
    | ok hd => exact ⟨_, rfl, hd⟩

theorem Means.error_iff (h : Means left o) {e : ε} : left.1 = .error e ↔ o = .error e := by
  cases h with
  | ok _ => simp
  | error => simp

theorem SameOutcome.means (hs : SameOutcome left left') (h : Means left o) : Means left' o := by
  obtain ⟨o', hl, hl'⟩ := hs
  rw [h.functional hl]
  exact hl'

theorem SameOutcome.eq_ok (hs : SameOutcome (.ok p, g) left) (hgrow : g.Grows left.2) :
    left.1 = .ok p := by
  obtain ⟨o, hp, hq⟩ := hs
  cases hp with
  | ok hp =>
    cases hq with
    | ok hq => rw [(hp.extend hgrow.extend).injective hgrow.wellFormed hq]

theorem means_of_eq_ok (hp : g.Denotes p a) (hgrow : g.Grows left.2) (hleft : left.1 = .ok p) :
    Means left (.ok a) := by
  obtain ⟨_, h⟩ := left
  cases hleft
  exact .ok (hp.extend hgrow.extend)

end

end NockDispatch
