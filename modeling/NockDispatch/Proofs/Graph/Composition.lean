import NockDispatch.Proofs.Graph.Lookup

/-!
# Edits one after another

Two edits in a row store the cells of a copy that is not wanted in the end, and in which order
they are made shows in the cells that are stored. It does not show in the node that is given: where
the nouns come out the same, so do their ids, because a noun has one id in a graph. An id means
something only in the graph that gave it out, so ids are compared when both rows of edits were made
in one graph; in two copies of a graph that have grown apart it is the nouns that are compared.
-/

namespace NockDispatch

/-- A computation on a graph that has no result where a slot is missing. -/
abbrev EditM := OptionT (StateM Graph)

theorem EditM.bind_eq (act : EditM α) (next : α → EditM β) (g : Graph) :
    (act >>= next) g =
      match act g with
      | (some a, g) => next a g
      | (none, g) => (none, g) := by
  change (match act g with
    | (o, k) => (match o with | some a => next a | none => pure none : StateM Graph _) k) = _
  rcases act g with ⟨_ | a, k⟩ <;> rfl

def EditM.edit (root : NodeId) (axis : Nat) (value : NodeId) : EditM NodeId :=
  fun g => g.edit root axis value

def EditM.twice (root : NodeId) (axis : Nat) (value : NodeId) (axis' : Nat) (value' : NodeId) :
    EditM NodeId := do
  let copy ← EditM.edit root axis value
  EditM.edit copy axis' value'

/-- Replace a slot of the noun that is to be put into a slot, and then put in the copy. -/
def EditM.inside (root : NodeId) (axis : Nat) (value : NodeId) (inner : Nat) (value' : NodeId) :
    EditM NodeId := do
  let copy ← EditM.edit value inner value'
  EditM.edit root axis copy

namespace Graph

variable {g : Graph} {act act' : EditM NodeId}

/-- On all that `g` grows into, the computation gives a node of this noun, or no result if there
is none. -/
def Makes (g : Graph) (act : EditM NodeId) (o : Option Noun) : Prop :=
  ∀ h, h.WellFormed → g.Extends h → h.Grows (act h).2 ∧ Option.Rel (act h).2.Denotes (act h).1 o

/-- Two computations come to the same. -/
structure SameCopy (g : Graph) (act act' : EditM NodeId) : Prop where
  grows : g.Grows (act g).2
  grows' : g.Grows (act' g).2
  /-- Run after the first, in the graph that it left or in what that has grown into, the second
  gives the same id, or none where the first gave none. -/
  after : ∀ ⦃h⦄, h.WellFormed → (act g).2.Extends h → (act' h).1 = (act g).1
  after' : ∀ ⦃h⦄, h.WellFormed → (act' g).2.Extends h → (act h).1 = (act' g).1
  /-- Run in two copies of the graph, they give nodes of the same noun. -/
  apart : Option.Rel (fun id id' => ∃ a, (act g).2.Denotes id a ∧ (act' g).2.Denotes id' a)
    (act g).1 (act' g).1

theorem Makes.bind {next : NodeId → EditM NodeId} {o : Option Noun} {f : Noun → Option Noun}
    (ha : g.Makes act o)
    (hn : ∀ h id a, g.Extends h → h.Denotes id a → h.Makes (next id) (f a)) :
    g.Makes (act >>= next) (o.bind f) := by
  intro h wf hgh
  obtain ⟨hgrow, hrel⟩ := ha h wf hgh
  rw [EditM.bind_eq]
  generalize act h = result at hgrow hrel
  obtain ⟨copy, k⟩ := result
  cases hrel with
  | none => exact ⟨hgrow, .none⟩
  | some hd =>
    obtain ⟨hgrow', hrel'⟩ := hn k _ _ (hgh.trans hgrow.extend) hd k hgrow.wellFormed (.refl k)
    exact ⟨hgrow.trans hgrow', hrel'⟩

theorem makes_edit {root value : NodeId} {a b : Noun} (ha : g.Denotes root a)
    (hb : g.Denotes value b) (axis : Nat) :
    g.Makes (EditM.edit root axis value) (a.edit? axis b) := by
  intro h wf hgh
  have hedit : EditM.edit root axis value h = h.putEdit (a.edit? axis b) :=
    (ha.extend hgh).edit wf (hb.extend hgh) axis
  rw [hedit]
  cases a.edit? axis b with
  | none => exact ⟨.refl wf, .none⟩
  | some c =>
    obtain ⟨hgrow, hc⟩ := grows_put wf c
    exact ⟨hgrow, .some hc⟩

theorem Makes.isSome_eq {o : Option Noun} (wf : g.WellFormed) (ha : g.Makes act o) :
    (act g).1.isSome = o.isSome := by
  obtain ⟨-, hrel⟩ := ha g wf (.refl g)
  generalize (act g).1 = result at hrel
  cases hrel <;> rfl

theorem Makes.rel {o : Option Noun} (ha : g.Makes act o) (ha' : g.Makes act' o) {h h' : Graph}
    (wf : h.WellFormed) (hgh : g.Extends h) (wf' : h'.WellFormed) (hgh' : g.Extends h') :
    Option.Rel (fun id id' => ∃ a, (act h).2.Denotes id a ∧ (act' h').2.Denotes id' a)
      (act h).1 (act' h').1 := by
  obtain ⟨-, hrel⟩ := ha h wf hgh
  obtain ⟨-, hrel'⟩ := ha' h' wf' hgh'
  generalize (act h).1 = copy at hrel ⊢
  generalize (act' h').1 = copy' at hrel' ⊢
  cases hrel with
  | none =>
    cases hrel'
    exact .none
  | some hd =>
    cases hrel' with
    | some hd' => exact .some ⟨_, hd, hd'⟩

/-- What made a noun once is found again by all that makes it. -/
theorem Makes.again {o : Option Noun} (wf : g.WellFormed) (ha : g.Makes act o)
    (ha' : g.Makes act' o) {h : Graph} (wf' : h.WellFormed) (hext : (act g).2.Extends h) :
    (act' h).1 = (act g).1 := by
  have hgh := (ha g wf (.refl g)).1.extend.trans hext
  have hgrow := (ha' h wf' hgh).1
  have hrel := ha.rel ha' wf (.refl g) wf' hgh
  generalize (act g).1 = copy at hrel
  generalize (act' h).1 = copy' at hrel
  cases hrel with
  | none => rfl
  | some hsame =>
    obtain ⟨a, hd, hd'⟩ := hsame
    exact congrArg some (hd'.injective hgrow.wellFormed (hd.extend (hext.trans hgrow.extend)))

theorem Makes.sameCopy {o : Option Noun} (wf : g.WellFormed) (ha : g.Makes act o)
    (ha' : g.Makes act' o) : g.SameCopy act act' where
  grows := (ha g wf (.refl g)).1
  grows' := (ha' g wf (.refl g)).1
  after _ := ha.again wf ha'
  after' _ := ha'.again wf ha
  apart := ha.rel ha' wf (.refl g) wf (.refl g)

variable {root v w : NodeId} {a b c : Noun}

theorem makes_twice (ha : g.Denotes root a) (hb : g.Denotes v b) (hc : g.Denotes w c)
    (m n : Nat) :
    g.Makes (EditM.twice root m v n w) ((a.edit? m b).bind (·.edit? n c)) :=
  (makes_edit ha hb m).bind fun _ _ _ hgh hd => makes_edit hd (hc.extend hgh) n

theorem makes_inside (ha : g.Denotes root a) (hb : g.Denotes v b) (hc : g.Denotes w c)
    (m n : Nat) :
    g.Makes (EditM.inside root m v n w) ((b.edit? n c).bind (a.edit? m ·)) :=
  (makes_edit hb hc n).bind fun _ _ _ hgh hd => makes_edit (ha.extend hgh) hd m

/-- Edits of two slots of which neither holds the other come to the same in either order. An edit
is undone by one of a slot that holds the edited one. And an edit inside a noun that was just put in
comes to the same as to put that noun in edited: both fail when it has no such slot. An edit by an
axis in a word is the one by its number. -/
theorem edits_compose (wf : g.WellFormed) (hroot : g.Stored root) (hv : g.Stored v)
    (hw : g.Stored w) {m n : Nat} (hm : (g.slot? root m).isSome) (hn : (g.slot? root n).isSome) :
    (¬ Axis.Above m n → ¬ Axis.Above n m →
      (EditM.twice root m v n w g).1.isSome ∧
      g.SameCopy (EditM.twice root m v n w) (EditM.twice root n w m v)) ∧
    (Axis.Above m n →
      (EditM.twice root n w m v g).1.isSome ∧
      g.SameCopy (EditM.twice root n w m v) (EditM.edit root m v)) ∧
    (∀ inner, inner ≠ 0 →
      (EditM.twice root m v (Axis.join m inner) w g).1.isSome = (g.slot? v inner).isSome ∧
      g.SameCopy (EditM.twice root m v (Axis.join m inner) w)
        (EditM.inside root m v inner w)) ∧
    ∀ (h : Graph) (id value : NodeId) (axis : UInt64),
      h.wordEdit id axis value = EditM.edit id axis.toNat value h := by
  obtain ⟨a, ha⟩ := exists_denotes wf hroot
  obtain ⟨b, hb⟩ := exists_denotes wf hv
  obtain ⟨c, hc⟩ := exists_denotes wf hw
  rw [ha.slot?_isSome] at hm hn
  refine ⟨fun hmn hnm => ?_, fun hmn => ?_, fun inner hi => ?_,
    fun h id value axis => h.wordEdit_eq id axis value⟩
  · have hmake := makes_twice ha hb hc m n
    refine ⟨?_, hmake.sameCopy wf ?_⟩
    · rw [hmake.isSome_eq wf]
      exact Noun.edit?_isSome_apart hm hn hmn hnm b c
    · rw [Noun.edit?_comm hmn hnm]
      exact makes_twice ha hc hb n m
  · have hmake := makes_twice ha hc hb n m
    rw [Noun.edit?_above hn hmn] at hmake
    refine ⟨?_, hmake.sameCopy wf (makes_edit ha hb m)⟩
    rw [hmake.isSome_eq wf, Noun.edit?_isSome]
    exact hm
  · have hm' : m ≠ 0 := by
      rintro rfl
      cases hm
    have hmake := makes_twice ha hb hc m (Axis.join m inner)
    rw [Noun.edit?_below a b c hm' hi] at hmake
    refine ⟨?_, hmake.sameCopy wf (makes_inside ha hb hc m inner)⟩
    rw [hmake.isSome_eq wf, hb.slot?_isSome, ← Noun.edit?_isSome b inner c]
    cases b.edit? inner c with
    | none => rfl
    | some d => rw [Option.bind_some, Noun.edit?_isSome, hm, Option.isSome_some]

/-- `[[1 2] 3]` is put into its own head, and its 1 into its tail. The two orders store different
cells, `[[[1 2] 3] 3]` or `[[1 2] 1]`, and both end in `[[[1 2] 3] 1]`. The new head has no slot 7,
as its tail is an atom. -/
theorem edits_compose_pair :
    let noun := Noun.cell (.cell (.atom 1) (.atom 2)) (.atom 3)
    let stored := (empty ⟨0⟩).put noun
    let g := stored.2
    let root := stored.1
    ∃ one, g.WellFormed ∧ g.Stored root ∧ g.Stored one ∧ g.slot? root 4 = some one ∧
      (g.slot? root 2).isSome ∧ (g.slot? root 3).isSome ∧
      (∃ copy, (EditM.twice root 2 root 3 one g).1 = some copy ∧
        (EditM.twice root 3 one 2 root (EditM.twice root 2 root 3 one g).2).1 = some copy) ∧
      (∃ copy, (EditM.twice root 4 one 2 root g).1 = some copy ∧
        (EditM.edit root 2 root (EditM.twice root 4 one 2 root g).2).1 = some copy) ∧
      (EditM.twice root 2 root (Axis.join 2 7) one g).1 = none ∧
      (EditM.inside root 2 root 7 one
        (EditM.twice root 2 root (Axis.join 2 7) one g).2).1 = none := by
  intro noun stored g root
  obtain ⟨hgrow, hstored⟩ := grows_put (wellFormed_empty ⟨0⟩) noun
  have wf : g.WellFormed := hgrow.wellFormed
  have hd : g.Denotes root noun := hstored
  have hslot : ∀ axis, (noun.slot? axis).isSome → (g.slot? root axis).isSome :=
    fun axis ha => (hd.slot?_isSome axis).trans ha
  obtain ⟨one, hone⟩ := Option.isSome_iff_exists.mp (hslot 4 rfl)
  have hfour : noun.slot? 4 = some (.atom 1) := rfl
  obtain ⟨id, hid, hone'⟩ := hd.slot?_some hfour
  cases hone.symm.trans hid
  obtain ⟨hcomm, -, hinside, -⟩ :=
    edits_compose wf hd.stored hd.stored hone'.stored (hslot 2 rfl) (hslot 3 rfl)
  obtain ⟨-, hundo, -⟩ :=
    edits_compose wf hd.stored hd.stored hone'.stored (hslot 2 rfl) (hslot 4 rfl)
  obtain ⟨hsome, hsame⟩ := hcomm (by decide) (by decide)
  obtain ⟨hsome', hsame'⟩ := hundo (by decide)
  obtain ⟨hsome'', hsame''⟩ := hinside 7 (by decide)
  obtain ⟨copy, hcopy⟩ := Option.isSome_iff_exists.mp hsome
  obtain ⟨copy', hcopy'⟩ := Option.isSome_iff_exists.mp hsome'
  have hnone : (EditM.twice root 2 root (Axis.join 2 7) one g).1 = none := by
    have hmissing : g.slot? root 7 = none := hd.slot?_none rfl
    simpa [hmissing] using hsome''
  exact ⟨one, wf, hd.stored, hone'.stored, hone, hslot 2 rfl, hslot 3 rfl,
    ⟨copy, hcopy, (hsame.after hsame.grows.wellFormed (.refl _)).trans hcopy⟩,
    ⟨copy', hcopy', (hsame'.after hsame'.grows.wellFormed (.refl _)).trans hcopy'⟩,
    hnone, (hsame''.after hsame''.grows.wellFormed (.refl _)).trans hnone⟩

end Graph
end NockDispatch
