import NockDispatch.Proofs.Noun.Derivation

/-!
# Evaluation of nouns against the rules

Three statements tie evaluation on ledgers to derivations. A product that it gives is
derived, and the ledger lists just the rules of the derivation. A product that is derived is
given, under all limits that are large enough. And larger limits change nothing but the
errors that name a limit.
-/

namespace NockDispatch

namespace Noun

/-- A nested evaluation is an evaluation entered one level deeper, with the budget that is
left. -/
theorem reduce_succ (limits : Limits) (budget : Nat) (depth : UInt64) (a f : Noun) :
    reduce limits (budget + 1) depth a f = (do
      LedgerM.countStep limits.steps
      match ← step (evaluate limits budget depth) a f with
      | .product p => return p
      | .tail a f => reduce limits budget depth a f) := rfl

end Noun

theorem bind_ok_iff {m : LedgerM α} {k : α → LedgerM β} {l l' : Ledger} {y : β} :
    (m >>= k) l = .ok y l' ↔ ∃ x l₁, m l = .ok x l₁ ∧ k x l₁ = .ok y l' := by
  change EStateM.bind m k l = _ ↔ _
  unfold EStateM.bind
  cases hm : m l with
  | ok x l₁ =>
    constructor
    · intro h
      exact ⟨x, l₁, rfl, h⟩
    · rintro ⟨x', l₁', h, h'⟩
      cases h
      exact h'
  | error e l₁ =>
    constructor
    · intro h
      cases h
    · rintro ⟨_, _, h, _⟩
      cases h

/-! ## Products are derived -/

/-- Whatever a computation gives satisfies `post`, together with the rules that it applied. -/
def Yields (m : LedgerM α) (post : α → List Application → Prop) : Prop :=
  ∀ ⦃l x l'⦄, m l = .ok x l' → ∃ rules, l'.applied = l.applied ++ rules ∧ post x rules

namespace Yields

variable {post : α → List Application → Prop} {post' : β → List Application → Prop}

theorem bind {m : LedgerM α} {k : α → LedgerM β} (hm : Yields m post)
    (hk : ∀ x r, post x r → Yields (k x) fun y s => post' y (r ++ s)) :
    Yields (m >>= k) post' := by
  intro l y l' h
  obtain ⟨x, l₁, hx, hy⟩ := bind_ok_iff.mp h
  obtain ⟨r, hr, hp⟩ := hm hx
  obtain ⟨s, hs, hp'⟩ := hk x r hp hy
  exact ⟨r ++ s, by rw [hs, hr, List.append_assoc], hp'⟩

theorem imp {post' : α → List Application → Prop} {m : LedgerM α} (hm : Yields m post)
    (hp : ∀ x r, post x r → post' x r) : Yields m post' := by
  intro l x l' h
  obtain ⟨r, hr, hx⟩ := hm h
  exact ⟨r, hr, hp x r hx⟩

theorem pure {x : α} (hx : post x []) : Yields (Pure.pure x) post := by
  intro l y l' h
  cases h
  exact ⟨[], by simp, hx⟩

theorem throw (e : EvalError) : Yields (MonadExcept.throw e) post := by
  intro l y l' h
  cases h

theorem store (a : Noun) : Yields (LedgerM.store a) fun b r => b = a ∧ r = [] := by
  intro l y l' h
  cases h
  exact ⟨[], by simp, rfl, rfl⟩

theorem enter (limit : Nat) (depth : UInt64) :
    Yields (LedgerM.enter limit depth) fun _ r => r = [] := by
  intro l y l' h
  unfold LedgerM.enter at h
  split at h
  · cases h
  · cases h
    exact ⟨[], by simp, rfl⟩

theorem countStep (limit : Nat) : Yields (LedgerM.countStep limit) fun _ r => r = [] := by
  intro l y l' h
  unfold LedgerM.countStep at h
  split at h
  · cases h
  · cases h
    exact ⟨[], by simp, rfl⟩

theorem record (rule : Rule) (a f : Noun) :
    Yields (LedgerM.record rule a f) fun _ r => r = [⟨rule, a, f⟩] := by
  intro l y l' h
  cases h
  exact ⟨_, rfl, rfl⟩

theorem present (n : Nat) (found : Option Noun) :
    Yields (LedgerM.present n found) fun a r => found = some a ∧ r = [] := by
  cases found with
  | none => exact .throw _
  | some a => exact .pure ⟨rfl, rfl⟩

theorem produce {a : Noun} {post : Noun.Outcome → List Application → Prop}
    (hp : post (.product a) []) : Yields (Noun.produce a) post :=
  (store a).bind fun _ _ ⟨hb, hr⟩ => .pure (by subst hb hr; exact hp)

end Yields

namespace Noun

/-- What a rule leaves of the evaluation of `f` on `a`, once it has applied the given rules. -/
def Leads (a f : Noun) : Outcome → List Application → Prop
  | .product p, l => Derives a f p l
  | .tail s g, l => ∀ p m, Derives s g p m → Derives a f p (l ++ m)

def SoundNested (nested : Nested) : Prop :=
  ∀ a f, Yields (nested a f) (Derives a f)

theorem opcode_eq_ok {code : Nat} {op : Opcode} (h : opcode code = .ok op) :
    code = op.toNat := by
  unfold opcode at h
  split at h
  · next hcode =>
    have hback : code.toUInt64.toNat = code := Nat.mod_eq_of_lt hcode
    unfold Opcode.ofWord? at h
    rw [← hback]
    generalize code.toUInt64 = word at h
    split at h
    · next hop =>
      cases h
      split at hop <;> cases hop <;> rfl
    · cases h
  · cases h

variable {nested : Nested} (hn : SoundNested nested)
include hn

theorem apply_sound (a : Noun) (op : Opcode) (args : Noun) :
    Yields (apply nested a op args) fun o l =>
      Leads a (cell (atom op.toNat) args) o
        (⟨.opcode op, a, cell (atom op.toNat) args⟩ :: l) := by
  cases op with
  | slot =>
    rcases args with n | ⟨b, c⟩
    · apply (Yields.present n _).bind
      rintro p r ⟨hp, hr⟩
      apply Yields.pure
      subst hr
      exact .slot hp
    · exact .throw _
  | quote => exact .pure .quote
  | eval =>
    rcases args with n | ⟨b, c⟩
    · exact .throw _
    · apply (hn a b).bind
      intro s l hs
      apply (hn a c).bind
      intro f m hf
      apply Yields.pure
      intro p k hp
      simpa [Leads, Opcode.toNat, triple, quadruple] using Derives.eval hs hf hp
  | isCell =>
    rw [apply]
    apply (hn a args).bind
    intro p l hp
    apply Yields.produce
    simpa [Leads, Opcode.toNat, triple, quadruple] using Derives.isCell hp
  | increment =>
    rw [apply]
    apply (hn a args).bind
    intro p l hp
    rcases p with n | ⟨p, q⟩
    · apply Yields.produce
      simpa [Leads, Opcode.toNat, triple, quadruple] using Derives.increment hp
    · exact .throw _
  | same =>
    rcases args with n | ⟨b, c⟩
    · exact .throw _
    · apply (hn a b).bind
      intro p l hp
      apply (hn a c).bind
      intro q m hq
      apply Yields.produce
      simpa [Leads, Opcode.toNat, triple, quadruple] using Derives.same hp hq
  | branch =>
    rcases args with n | ⟨b, n | ⟨c, d⟩⟩
    · exact .throw _
    · exact .throw _
    · rw [apply]
      apply (hn a b).bind
      intro test l htest
      rcases test with (_ | _ | n) | ⟨p, q⟩
      · apply Yields.pure
        intro p m hp
        simpa [Leads, Opcode.toNat, triple, quadruple] using Derives.branch true htest hp
      · apply Yields.pure
        intro p m hp
        simpa [Leads, Opcode.toNat, triple, quadruple] using Derives.branch false htest hp
      · exact .throw _
      · exact .throw _
  | compose =>
    rcases args with n | ⟨b, c⟩
    · exact .throw _
    · apply (hn a b).bind
      intro s l hs
      apply Yields.pure
      intro p m hp
      simpa [Leads, Opcode.toNat, triple, quadruple] using Derives.compose hs hp
  | push =>
    rcases args with n | ⟨b, c⟩
    · exact .throw _
    · apply (hn a b).bind
      intro s l hs
      apply (Yields.store _).bind
      rintro s' r ⟨hs', hr⟩
      apply Yields.pure
      subst hs' hr
      intro p m hp
      simpa [Leads, Opcode.toNat, triple, quadruple] using Derives.push hs hp
  | pull =>
    rcases args with n | ⟨n | ⟨b, c⟩, d⟩
    · exact .throw _
    · apply (hn a d).bind
      intro core l hcore
      apply (Yields.present n _).bind
      rintro f r ⟨hf, hr⟩
      apply Yields.pure
      subst hr
      intro p m hp
      simpa [Leads, Opcode.toNat, triple, quadruple] using Derives.pull hcore hf hp
    · exact .throw _
  | edit =>
    rcases args with n | ⟨n | ⟨n | ⟨b₁, b₂⟩, c⟩, d⟩
    · exact .throw _
    · exact .throw _
    · apply (hn a c).bind
      intro value l hv
      apply (hn a d).bind
      intro target m ht
      apply (Yields.present n _).bind
      rintro p r ⟨hp, hr⟩
      apply Yields.produce
      subst hr
      simpa [Leads, Opcode.toNat, triple, quadruple] using Derives.edit hv ht hp
    · exact .throw _
  | hint =>
    rcases args with n | ⟨n | ⟨b, clue⟩, c⟩
    · exact .throw _
    · exact .pure fun p m hp => .staticHint hp
    · apply (hn a clue).bind
      intro q l hq
      apply Yields.pure
      intro p m hp
      simpa [Leads, Opcode.toNat, triple, quadruple] using Derives.dynamicHint hq hp

theorem step_sound (a f : Noun) : Yields (step nested a f) (Leads a f) := by
  rcases f with n | ⟨code | ⟨b, c⟩, d⟩
  · exact .throw _
  · rw [step]
    cases hop : opcode code with
    | ok op =>
      rw [opcode_eq_ok hop]
      apply (Yields.record _ _ _).bind
      intro _ r hr
      subst hr
      exact apply_sound hn a op d
    | error e => exact .throw e
  · apply (Yields.record _ _ _).bind
    intro _ r hr
    apply (hn a (cell b c)).bind
    intro p l hp
    apply (hn a d).bind
    intro q m hq
    apply Yields.produce
    subst hr
    simpa [Leads] using Derives.autocons hp hq

omit hn in
theorem reduce_sound (limits : Limits) (budget : Nat) (depth : UInt64) (a f : Noun) :
    Yields (reduce limits budget depth a f) (Derives a f) := by
  induction budget generalizing depth a f with
  | zero => exact .throw _
  | succ budget ih =>
    have hnested : SoundNested (evaluate limits budget depth) := fun b g =>
      (Yields.enter _ _).bind fun _ r hr => by
        subst hr
        exact ih (depth + 1) b g
    rw [reduce_succ]
    apply (Yields.countStep _).bind
    intro _ r hr
    subst hr
    apply (step_sound hnested a f).bind
    intro left l hl
    rcases left with p | ⟨b, g⟩
    · exact .pure (by simpa [Leads] using hl)
    · exact (ih depth b g).imp fun p m hp => hl p m hp

end Noun

/-! ## What is derived is given -/

/-- A computation that needs `n` steps and the depth `d` to give `x`: it gives `x` after just
that many steps, or it names a limit, and then the limits are too small for that. -/
def Settles (limits : Limits) (budget : Nat) (m : LedgerM α) (x : α) (n d : Nat) : Prop :=
  ∀ l, limits.steps ≤ l.steps + budget →
    (∃ l', m l = .ok x l' ∧ l'.steps = l.steps + n) ∨
    (∃ e l', m l = .error e l' ∧ e.IsLimit ∧ (limits.steps < l.steps + n ∨ limits.depth < d))

namespace Settles

variable {limits : Limits} {budget n n' d : Nat}

theorem bind {m : LedgerM α} {k : α → LedgerM β} {x : α} {y : β}
    (hm : Settles limits budget m x n d) (hk : Settles limits budget (k x) y n' d) :
    Settles limits budget (m >>= k) y (n + n') d := by
  intro l hl
  change (∃ l', EStateM.bind m k l = _ ∧ _) ∨ ∃ e l', EStateM.bind m k l = _ ∧ _
  unfold EStateM.bind
  rcases hm l hl with ⟨l₁, hx, hn⟩ | ⟨e, l₁, hx, he, hlim⟩
  · rw [hx]
    rcases hk l₁ (by omega) with ⟨l₂, hy, hn'⟩ | ⟨e, l₂, hy, he, hlim⟩
    · exact .inl ⟨l₂, hy, by omega⟩
    · exact .inr ⟨e, l₂, hy, he, by omega⟩
  · rw [hx]
    exact .inr ⟨e, l₁, rfl, he, by omega⟩

theorem free_bind {m : LedgerM α} {k : α → LedgerM β} {x : α} {y : β}
    (hm : Settles limits budget m x 0 d) (hk : Settles limits budget (k x) y n d) :
    Settles limits budget (m >>= k) y n d := by
  rw [← Nat.zero_add n]
  exact hm.bind hk

theorem bind_free {m : LedgerM α} {k : α → LedgerM β} {x : α} {y : β}
    (hm : Settles limits budget m x n d) (hk : Settles limits budget (k x) y 0 d) :
    Settles limits budget (m >>= k) y n d :=
  hm.bind hk

theorem pure (x : α) : Settles limits budget (Pure.pure x) x 0 d :=
  fun l _ => .inl ⟨l, rfl, rfl⟩

theorem store (a : Noun) : Settles limits budget (LedgerM.store a) a 0 d :=
  fun _ _ => .inl ⟨_, rfl, rfl⟩

theorem record (rule : Rule) (a f : Noun) :
    Settles limits budget (LedgerM.record rule a f) () 0 d :=
  fun _ _ => .inl ⟨_, rfl, rfl⟩

theorem present (n : Nat) {found : Option Noun} {a : Noun} (hf : found = some a) :
    Settles limits budget (LedgerM.present n found) a 0 d := by
  subst hf
  exact pure a

theorem produce (a : Noun) : Settles limits budget (Noun.produce a) (.product a) 0 d :=
  (store a).free_bind (pure _)

theorem enter {depth : UInt64} (hd : depth.toNat ≤ d) :
    Settles limits budget (LedgerM.enter limits.depth depth) () 0 d := by
  intro l hl
  unfold LedgerM.enter
  split
  · next hdeep => exact .inr ⟨_, _, rfl, trivial, by omega⟩
  · exact .inl ⟨_, rfl, rfl⟩

end Settles

namespace Noun

/-- Evaluating `f` on `a` gives `p` after `n` steps, no more than `d` levels further down. -/
def Affords (a f p : Noun) (n d : Nat) : Prop :=
  ∀ limits budget (depth : UInt64),
    Settles limits budget (reduce limits budget depth a f) p n (depth.toNat + d)

variable {a f p : Noun} {n d : Nat}

theorem Affords.nested (h : Affords a f p n d) {d' : Nat} (hd : d < d') (limits : Limits)
    (budget : Nat) (depth : UInt64) :
    Settles limits budget (evaluate limits budget depth a f) p n (depth.toNat + d') := by
  have hdepth : (depth + 1).toNat ≤ depth.toNat + 1 := UInt64.toNat_add depth 1 ▸ Nat.mod_le _ _
  have hrun : Settles limits budget (evaluate limits budget depth a f) p (0 + n)
      ((depth + 1).toNat + d) := (Settles.enter (by omega)).bind (h limits budget (depth + 1))
  intro l hl
  rcases hrun l hl with ⟨l', hx, hn⟩ | ⟨e, l', hx, he, hlim⟩
  · exact .inl ⟨l', hx, by omega⟩
  · exact .inr ⟨e, l', hx, he, by omega⟩

theorem Affords.deepen (h : Affords a f p n d) {d' : Nat} (hd : d ≤ d') : Affords a f p n d' := by
  intro limits budget depth l hl
  rcases h limits budget depth l hl with hok | ⟨e, l', hx, he, hlim⟩
  · exact .inl hok
  · exact .inr ⟨e, l', hx, he, by omega⟩

theorem affords_of_step
    (h : ∀ limits budget (depth : UInt64), Settles limits budget (do
      match ← step (evaluate limits budget depth) a f with
      | .product p => return p
      | .tail a f => reduce limits budget depth a f) p n (depth.toNat + d)) :
    Affords a f p (n + 1) d := by
  intro limits budget depth l hl
  rcases budget with _ | budget
  · exact .inr ⟨_, l, rfl, trivial, by omega⟩
  · rw [reduce_succ]
    change (∃ l', EStateM.bind _ _ l = _ ∧ _) ∨ ∃ e l', EStateM.bind _ _ l = _ ∧ _
    unfold EStateM.bind LedgerM.countStep
    by_cases hsteps : limits.steps ≤ l.steps
    · rw [if_pos hsteps]
      exact .inr ⟨_, l, rfl, trivial, by omega⟩
    · rw [if_neg hsteps]
      rcases h limits budget depth { l with steps := l.steps + 1 } (by simp only; omega) with
        ⟨l', hx, hn⟩ | ⟨e, l', hx, he, hlim⟩
      · exact .inl ⟨l', hx, by simp only at hn; omega⟩
      · exact .inr ⟨e, l', hx, he, by simp only at hlim; omega⟩

theorem affords_product
    (h : ∀ limits budget (depth : UInt64),
      Settles limits budget (step (evaluate limits budget depth) a f) (.product p) n
        (depth.toNat + d)) :
    Affords a f p (n + 1) d :=
  affords_of_step fun limits budget depth => (h limits budget depth).bind_free (.pure p)

theorem affords_tail {b g : Noun} {n' : Nat}
    (h : ∀ limits budget (depth : UInt64),
      Settles limits budget (step (evaluate limits budget depth) a f) (.tail b g) n
        (depth.toNat + d))
    (hrest : Affords b g p n' d) : Affords a f p (n + n' + 1) d :=
  affords_of_step fun limits budget depth => (h limits budget depth).bind (hrest limits budget depth)

theorem step_opcode (nested : Nested) (a : Noun) (op : Opcode) (args : Noun) :
    step nested a (cell (atom op.toNat) args) = (do
      LedgerM.record (.opcode op) a (cell (atom op.toNat) args)
      apply nested a op args) := by
  cases op <;> rfl

theorem settles_step {limits : Limits} {budget : Nat} {nested : Nested} (op : Opcode)
    {args : Noun} {o : Outcome} (h : Settles limits budget (apply nested a op args) o n d) :
    Settles limits budget (step nested a (cell (atom op.toNat) args)) o n d := by
  rw [step_opcode]
  exact (Settles.record _ _ _).free_bind h

theorem Derives.affords {l : List Application} (h : Derives a f p l) :
    ∃ d, Affords a f p l.length d := by
  induction h with
  | autocons _ _ ih ih' =>
    obtain ⟨d, ih⟩ := ih
    obtain ⟨d', ih'⟩ := ih'
    simp only [List.length_cons, List.length_append]
    refine ⟨d + d' + 1, affords_product fun limits budget depth => ?_⟩
    apply (Settles.record _ _ _).free_bind
    apply (ih.nested (by omega) limits budget depth).bind
    exact (ih'.nested (by omega) limits budget depth).bind_free (.produce _)
  | slot hs =>
    refine ⟨0, affords_product fun limits budget depth => settles_step .slot ?_⟩
    exact (Settles.present _ hs).free_bind (.pure _)
  | quote => exact ⟨0, affords_product fun limits budget depth => settles_step .quote (.pure _)⟩
  | eval _ _ _ ih ih' ih'' =>
    obtain ⟨d, ih⟩ := ih
    obtain ⟨d', ih'⟩ := ih'
    obtain ⟨d'', ih''⟩ := ih''
    simp only [List.length_cons, List.length_append]
    refine ⟨d + d' + d'' + 1, affords_tail (fun limits budget depth => settles_step .eval ?_)
      (ih''.deepen (by omega))⟩
    apply (ih.nested (by omega) limits budget depth).bind
    exact (ih'.nested (by omega) limits budget depth).bind_free (.pure _)
  | isCell _ ih =>
    obtain ⟨d, ih⟩ := ih
    refine ⟨d + 1, affords_product fun limits budget depth => settles_step .isCell ?_⟩
    exact (ih.nested (by omega) limits budget depth).bind_free (.produce _)
  | increment _ ih =>
    obtain ⟨d, ih⟩ := ih
    refine ⟨d + 1, affords_product fun limits budget depth => settles_step .increment ?_⟩
    exact (ih.nested (by omega) limits budget depth).bind_free (.produce _)
  | same _ _ ih ih' =>
    obtain ⟨d, ih⟩ := ih
    obtain ⟨d', ih'⟩ := ih'
    simp only [List.length_cons, List.length_append]
    refine ⟨d + d' + 1, affords_product fun limits budget depth => settles_step .same ?_⟩
    apply (ih.nested (by omega) limits budget depth).bind
    exact (ih'.nested (by omega) limits budget depth).bind_free (.produce _)
  | branch yes _ _ ih ih' =>
    obtain ⟨d, ih⟩ := ih
    obtain ⟨d', ih'⟩ := ih'
    simp only [List.length_cons, List.length_append]
    refine ⟨d + d' + 1, affords_tail (fun limits budget depth => settles_step .branch ?_)
      (ih'.deepen (by omega))⟩
    apply (ih.nested (by omega) limits budget depth).bind_free
    cases yes <;> exact .pure _
  | compose _ _ ih ih' =>
    obtain ⟨d, ih⟩ := ih
    obtain ⟨d', ih'⟩ := ih'
    simp only [List.length_cons, List.length_append]
    refine ⟨d + d' + 1, affords_tail (fun limits budget depth => settles_step .compose ?_)
      (ih'.deepen (by omega))⟩
    exact (ih.nested (by omega) limits budget depth).bind_free (.pure _)
  | push _ _ ih ih' =>
    obtain ⟨d, ih⟩ := ih
    obtain ⟨d', ih'⟩ := ih'
    simp only [List.length_cons, List.length_append]
    refine ⟨d + d' + 1, affords_tail (fun limits budget depth => settles_step .push ?_)
      (ih'.deepen (by omega))⟩
    apply (ih.nested (by omega) limits budget depth).bind_free
    exact (Settles.store _).free_bind (.pure _)
  | pull _ hs _ ih ih' =>
    obtain ⟨d, ih⟩ := ih
    obtain ⟨d', ih'⟩ := ih'
    simp only [List.length_cons, List.length_append]
    refine ⟨d + d' + 1, affords_tail (fun limits budget depth => settles_step .pull ?_)
      (ih'.deepen (by omega))⟩
    apply (ih.nested (by omega) limits budget depth).bind_free
    exact (Settles.present _ hs).free_bind (.pure _)
  | edit _ _ he ih ih' =>
    obtain ⟨d, ih⟩ := ih
    obtain ⟨d', ih'⟩ := ih'
    simp only [List.length_cons, List.length_append]
    refine ⟨d + d' + 1, affords_product fun limits budget depth => settles_step .edit ?_⟩
    apply (ih.nested (by omega) limits budget depth).bind
    apply (ih'.nested (by omega) limits budget depth).bind_free
    exact (Settles.present _ he).free_bind (.produce _)
  | dynamicHint _ _ ih ih' =>
    obtain ⟨d, ih⟩ := ih
    obtain ⟨d', ih'⟩ := ih'
    simp only [List.length_cons, List.length_append]
    refine ⟨d + d' + 1, affords_tail (fun limits budget depth => settles_step .hint ?_)
      (ih'.deepen (by omega))⟩
    exact (ih.nested (by omega) limits budget depth).bind_free (.pure _)
  | staticHint _ ih =>
    obtain ⟨d, ih⟩ := ih
    rw [List.length_cons, ← Nat.zero_add (List.length _)]
    exact ⟨d, affords_tail (fun limits budget depth => settles_step .hint (.pure _)) ih⟩

end Noun
end NockDispatch
