import NockDispatch.Proofs.Eval.Adequacy
import NockDispatch.Proofs.Graph.Following

/-!
# What an evaluation costs

An evaluation that ends for another reason than a limit has a bill: the nouns that it stores, the
rules that it applies, the steps that it takes and the levels that it goes down. The bill is the
same wherever the evaluation starts and whatever its limits are. Limits that cover the bill change
nothing, and all others cut the evaluation short: it fails with an error that names a limit, after
a part of what the bill lists.
-/

namespace NockDispatch

/-! ## Bills -/

/-- What an evaluation does to a ledger. -/
structure Bill where
  stored : List Noun
  steps : Nat
  /-- How far it goes down from where it starts. -/
  depth : Nat
  applied : List Application

namespace Bill

def free (stored : List Noun) (applied : List Application) : Bill := ⟨stored, 0, 0, applied⟩

def andThen (b c : Bill) : Bill :=
  ⟨b.stored ++ c.stored, b.steps + c.steps, max b.depth c.depth, b.applied ++ c.applied⟩

def step (b : Bill) : Bill := { b with steps := b.steps + 1 }

def deeper (b : Bill) : Bill := { b with depth := b.depth + 1 }

end Bill

/-- The greatest of the depths that are reached by going down some levels, one after another. -/
def greatestDepth (depth : UInt64) : Nat → Nat
  | 0 => 0
  | levels + 1 => max (depth + 1).toNat (greatestDepth (depth + 1) levels)

theorem greatestDepth_le (depth : UInt64) (levels : Nat) :
    greatestDepth depth levels ≤ depth.toNat + levels := by
  induction levels generalizing depth with
  | zero => exact Nat.zero_le _
  | succ levels ih =>
    have hnext := toNat_succ_le depth
    have hrest := ih (depth + 1)
    rw [greatestDepth]
    omega

theorem greatestDepth_max (depth : UInt64) (levels more : Nat) :
    greatestDepth depth (max levels more) =
      max (greatestDepth depth levels) (greatestDepth depth more) := by
  induction levels generalizing depth more with
  | zero => rw [Nat.zero_max, greatestDepth, Nat.zero_max]
  | succ levels ih =>
    cases more with
    | zero => rw [Nat.max_zero, greatestDepth.eq_1, Nat.max_zero]
    | succ more =>
      rw [Nat.succ_max_succ, greatestDepth, greatestDepth, greatestDepth, ih]
      omega

/-- A ledger after something was billed that was done at a depth. -/
def Ledger.charge (l : Ledger) (depth : UInt64) (b : Bill) : Ledger where
  stored := l.stored ++ b.stored
  steps := l.steps + b.steps
  maxDepth := max l.maxDepth (greatestDepth depth b.depth)
  applied := l.applied ++ b.applied

def Ledger.count (l : Ledger) : Ledger := { l with steps := l.steps + 1 }

def Ledger.reach (l : Ledger) (depth : UInt64) : Ledger :=
  { l with maxDepth := max l.maxDepth depth.toNat }

theorem Ledger.charge_count (l : Ledger) (depth : UInt64) (b : Bill) :
    l.count.charge depth b = l.charge depth b.step := by
  simp only [charge, count, Bill.step, Ledger.mk.injEq, true_and, and_true]
  omega

theorem Ledger.charge_reach (l : Ledger) (depth : UInt64) (b : Bill) :
    (l.reach (depth + 1)).charge (depth + 1) b = l.charge depth b.deeper := by
  simp only [charge, reach, Bill.deeper, greatestDepth, Nat.max_assoc]

theorem Ledger.charge_charge (l : Ledger) (depth : UInt64) (b c : Bill) :
    (l.charge depth b).charge depth c = l.charge depth (b.andThen c) := by
  simp only [charge, Bill.andThen, greatestDepth_max, List.append_assoc, Nat.add_assoc,
    Nat.max_assoc]

/-! ## Bounds -/

/-- What a computation has to keep to: limits, the steps that it may still try, and the depth at
which it runs. -/
structure Bounds where
  limits : Limits
  budget : Nat
  depth : UInt64

abbrev BoundedM (α : Type) := Bounds → LedgerM α

namespace Bounds

variable {c : Bounds} {l : Ledger} {b b' : Bill}

def spend (c : Bounds) : Bounds := { c with budget := c.budget - 1 }

def deeper (c : Bounds) : Bounds := { c with depth := c.depth + 1 }

/-- The step limit is not passed yet, and the budget is never in the way of the steps that are
left. -/
structure Hold (c : Bounds) (l : Ledger) : Prop where
  steps : l.steps ≤ c.limits.steps
  budget : c.limits.steps ≤ l.steps + c.budget

structure Cover (c : Bounds) (l : Ledger) (b : Bill) : Prop where
  steps : l.steps + b.steps ≤ c.limits.steps
  depth : greatestDepth c.depth b.depth ≤ c.limits.depth

theorem Hold.charge (hc : c.Hold l) (hb : c.Cover l b) : c.Hold (l.charge c.depth b) :=
  ⟨hb.steps, Nat.le_trans hc.budget (by simp only [Ledger.charge]; omega)⟩

theorem Hold.spend (hc : c.Hold l) (hleft : ¬ c.limits.steps ≤ l.steps) : c.spend.Hold l.count := by
  have hbudget := hc.budget
  exact ⟨by simp only [Bounds.spend, Ledger.count]; omega,
    by simp only [Bounds.spend, Ledger.count]; omega⟩

theorem Hold.deeper (hc : c.Hold l) : c.deeper.Hold (l.reach (c.depth + 1)) :=
  ⟨hc.steps, hc.budget⟩

theorem cover_step : c.Cover l b.step ↔ c.spend.Cover l.count b := by
  constructor
  · rintro ⟨hsteps, hdepth⟩
    simp only [Bill.step] at hsteps
    exact ⟨by simp only [Bounds.spend, Ledger.count]; omega, hdepth⟩
  · rintro ⟨hsteps, hdepth⟩
    simp only [Bounds.spend, Ledger.count] at hsteps
    exact ⟨by simp only [Bill.step]; omega, hdepth⟩

theorem cover_deeper : c.Cover l b.deeper ↔
    ¬ c.limits.depth < (c.depth + 1).toNat ∧ c.deeper.Cover (l.reach (c.depth + 1)) b := by
  have hdepth : greatestDepth c.depth b.deeper.depth ≤ c.limits.depth ↔
      ¬ c.limits.depth < (c.depth + 1).toNat ∧
        greatestDepth c.deeper.depth b.depth ≤ c.limits.depth := by
    rw [Nat.not_lt]
    exact Nat.max_le
  constructor
  · rintro ⟨hsteps, hdeep⟩
    obtain ⟨hfits, hrest⟩ := hdepth.mp hdeep
    exact ⟨hfits, hsteps, hrest⟩
  · rintro ⟨hfits, hsteps, hrest⟩
    exact ⟨hsteps, hdepth.mpr ⟨hfits, hrest⟩⟩

theorem cover_andThen :
    c.Cover l (b.andThen b') ↔ c.Cover l b ∧ c.Cover (l.charge c.depth b) b' := by
  constructor
  · rintro ⟨hsteps, hdepth⟩
    simp only [Bill.andThen, greatestDepth_max] at hsteps hdepth
    exact ⟨⟨by omega, by omega⟩, ⟨by simp only [Ledger.charge]; omega, by omega⟩⟩
  · rintro ⟨⟨_, hdepth⟩, ⟨hsteps, hdepth'⟩⟩
    simp only [Ledger.charge] at hsteps
    exact ⟨by simp only [Bill.andThen]; omega,
      by simp only [Bill.andThen, greatestDepth_max]; omega⟩

theorem Hold.cover_free (hc : c.Hold l) (stored : List Noun) (applied : List Application) :
    c.Cover l (.free stored applied) :=
  ⟨hc.steps, Nat.zero_le _⟩

/-- The errors that name one of the limits. -/
def Names (c : Bounds) (e : EvalError) : Prop :=
  e = .stepLimit c.limits.steps ∨ e = .depthLimit c.limits.depth

theorem Names.isLimit {e : EvalError} (he : c.Names e) : e.IsLimit := by
  rcases he with rfl | rfl <;> trivial

end Bounds

/-! ## Costs -/

/-- An end without a limit: a product, or an error that names none. -/
def Fair (o : Except EvalError α) : Prop := ∀ e, o = .error e → ¬ e.IsLimit

theorem fair_ok (x : α) : Fair (.ok x : Except EvalError α) := fun _ h => nomatch h

theorem fair_error {e : EvalError} (he : ¬ e.IsLimit) : Fair (.error e : Except EvalError α) := by
  rintro _ ⟨⟩
  exact he

def finish : Except EvalError α → Ledger → EStateM.Result EvalError Ledger α
  | .ok x, l => .ok x l
  | .error e, l => .error e l

theorem outcome_finish (o : Except EvalError α) (l : Ledger) : outcome (finish o l) = o := by
  cases o <;> rfl

theorem exists_finish (left : EStateM.Result EvalError Ledger α) :
    ∃ l, left = finish (outcome left) l := by
  cases left with
  | ok x l => exact ⟨l, rfl⟩
  | error e l => exact ⟨l, rfl⟩

/-- An error that names a limit, after a part of what a bill lists. -/
inductive Cut (c : Bounds) (l : Ledger) (b : Bill) : EStateM.Result EvalError Ledger α → Prop
  | intro {e l' stored applied} : c.Names e → l'.stored = l.stored ++ stored →
      stored <+: b.stored → l'.applied = l.applied ++ applied → applied <+: b.applied →
      Cut c l b (.error e l')

theorem Cut.nothing {c : Bounds} {e : EvalError} {l l' : Ledger} (he : c.Names e) (b : Bill)
    (hs : l'.stored = l.stored) (ha : l'.applied = l.applied) :
    Cut c l b (.error e l' : EStateM.Result EvalError Ledger α) :=
  .intro he (hs.trans (List.append_nil _).symm) List.nil_prefix
    (ha.trans (List.append_nil _).symm) List.nil_prefix

theorem Cut.weaken {c c' : Bounds} {l l' : Ledger} {b b' : Bill}
    {left : EStateM.Result EvalError Ledger α} (h : Cut c l b left) (hc : c.limits = c'.limits)
    (hs : l.stored = l'.stored) (ha : l.applied = l'.applied) (hb : b.stored <+: b'.stored)
    (hb' : b.applied <+: b'.applied) : Cut c' l' b' left := by
  cases h with
  | intro he hstored hs' happlied ha' =>
    refine .intro ?_ (hs ▸ hstored) (hs'.trans hb) (ha ▸ happlied) (ha'.trans hb')
    unfold Bounds.Names
    rw [← hc]
    exact he

/-- Within all bounds that cover the bill `b`, a computation ends as `o` and does what the bill
lists; within all others it is cut short. -/
structure Costs (m : BoundedM α) (o : Except EvalError α) (b : Bill) : Prop where
  fair : Fair o
  covered : ∀ ⦃c l⦄, c.Hold l → c.Cover l b → m c l = finish o (l.charge c.depth b)
  cut : ∀ ⦃c l⦄, c.Hold l → ¬ c.Cover l b → Cut c l b (m c l)

namespace Costs

variable {m : BoundedM α} {k : α → BoundedM β} {b b' : Bill}

theorem free {m : LedgerM α} {o : Except EvalError α} {stored : List Noun}
    {applied : List Application} (hf : Fair o)
    (hm : ∀ l, m l = finish o
      { l with stored := l.stored ++ stored, applied := l.applied ++ applied }) :
    Costs (fun _ => m) o (.free stored applied) := by
  refine ⟨hf, fun c l hc _ => ?_, fun c l hc hb => absurd (hc.cover_free stored applied) hb⟩
  rw [hm, Ledger.charge]
  simp only [Bill.free, Nat.add_zero, greatestDepth, Nat.max_zero]

theorem pure (x : α) : Costs (fun _ => Pure.pure x) (.ok x) (.free [] []) :=
  free (fair_ok x) fun l => by simp [finish, Pure.pure, EStateM.pure]

theorem throw {e : EvalError} (he : ¬ e.IsLimit) :
    Costs (fun _ => MonadExcept.throw e : BoundedM α) (.error e) (.free [] []) :=
  free (fair_error he) fun l => by
    simp only [List.append_nil]
    rfl

theorem store (a : Noun) : Costs (fun _ => LedgerM.store a) (.ok a) (.free [a] []) :=
  free (fair_ok a) fun l => by simp [finish, LedgerM.store]

theorem record (rule : Rule) (a f : Noun) :
    Costs (fun _ => LedgerM.record rule a f) (.ok ()) (.free [] [⟨rule, a, f⟩]) :=
  free (fair_ok ()) fun l => by simp [finish, LedgerM.record]

theorem bind_error {e : EvalError} (hm : Costs m (.error e) b) :
    Costs (fun c => m c >>= fun x => k x c) (.error e) b := by
  refine ⟨fair_error (hm.fair e rfl), fun c l hc hb => ?_, fun c l hc hb => ?_⟩
  · change EStateM.bind _ _ l = _
    rw [EStateM.bind, hm.covered hc hb]
    rfl
  · change Cut c l b (EStateM.bind _ _ l)
    have hcut := hm.cut hc hb
    unfold EStateM.bind
    generalize m c l = left at hcut ⊢
    cases hcut with
    | intro he hs hs' ha ha' => exact .intro he hs hs' ha ha'

theorem bind_ok {x : α} {o : Except EvalError β} (hm : Costs m (.ok x) b) (hk : Costs (k x) o b') :
    Costs (fun c => m c >>= fun x => k x c) o (b.andThen b') := by
  refine ⟨hk.fair, fun c l hc hb => ?_, fun c l hc hb => ?_⟩
  · obtain ⟨hb, hb'⟩ := Bounds.cover_andThen.mp hb
    change EStateM.bind _ _ l = _
    rw [EStateM.bind, hm.covered hc hb, ← Ledger.charge_charge]
    exact hk.covered (hc.charge hb) hb'
  · change Cut c l (b.andThen b') (EStateM.bind _ _ l)
    unfold EStateM.bind
    by_cases hfirst : c.Cover l b
    · have hrest : ¬ c.Cover (l.charge c.depth b) b' := fun h =>
        hb (Bounds.cover_andThen.mpr ⟨hfirst, h⟩)
      have hcut := hk.cut (hc.charge hfirst) hrest
      rw [hm.covered hc hfirst]
      simp only [finish]
      generalize k x c (l.charge c.depth b) = left at hcut ⊢
      cases hcut with
      | intro he hs hs' ha ha' =>
        exact .intro he (hs.trans (List.append_assoc _ _ _))
          ((List.prefix_append_right_inj _).mpr hs')
          (ha.trans (List.append_assoc _ _ _)) ((List.prefix_append_right_inj _).mpr ha')
    · have hcut := hm.cut hc hfirst
      generalize m c l = left at hcut ⊢
      cases hcut with
      | intro he hs hs' ha ha' =>
        exact .intro he hs (hs'.trans (List.prefix_append _ _)) ha
          (ha'.trans (List.prefix_append _ _))

end Costs

/-! ## Evaluation has a cost -/

/-- Within all bounds of a budget, a computation names a limit or has a cost. -/
def Accountable (budget : Nat) (m : BoundedM α) : Prop :=
  ∀ ⦃c l⦄, c.Hold l → c.budget = budget →
    (∃ e l', m c l = .error e l' ∧ e.IsLimit) ∨ ∃ o b, Costs m o b

namespace Accountable

variable {budget : Nat} {m : BoundedM α} {k : α → BoundedM β}

theorem of_costs {o : Except EvalError α} {b : Bill} (hm : Costs m o b) : Accountable budget m :=
  fun _ _ _ _ => .inr ⟨o, b, hm⟩

/-- Two computations one after the other name a limit, or the costs of what is reached are known. -/
theorem bind_cases (hm : Accountable budget m) (hk : ∀ x, Accountable budget (k x)) {c : Bounds}
    {l : Ledger} (hc : c.Hold l) (hbudget : c.budget = budget) :
    (∃ e l', (m c >>= fun x => k x c) l = .error e l' ∧ e.IsLimit) ∨
      (∃ e b, Costs m (.error e) b) ∨
      ∃ x o b b', Costs m (.ok x) b ∧ Costs (k x) o b' := by
  change (∃ e l', EStateM.bind _ _ l = _ ∧ _) ∨ _
  unfold EStateM.bind
  rcases hm hc hbudget with ⟨e, l', hlimit, he⟩ | ⟨o, b, hcost⟩
  · rw [hlimit]
    exact .inl ⟨e, l', rfl, he⟩
  · cases o with
    | error e => exact .inr (.inl ⟨e, b, hcost⟩)
    | ok x =>
      by_cases hb : c.Cover l b
      · rw [hcost.covered hc hb]
        rcases hk x (hc.charge hb) hbudget with hlimit | ⟨o, b', hcost'⟩
        · exact .inl hlimit
        · exact .inr (.inr ⟨x, o, b, b', hcost, hcost'⟩)
      · have hcut := hcost.cut hc hb
        generalize m c l = left at hcut ⊢
        cases hcut with
        | intro he => exact .inl ⟨_, _, rfl, he.isLimit⟩

theorem bind (hm : Accountable budget m) (hk : ∀ x, Accountable budget (k x)) :
    Accountable budget fun c => m c >>= fun x => k x c := by
  intro c l hc hbudget
  rcases hm.bind_cases hk hc hbudget with hlimit | ⟨e, b, hcost⟩ | ⟨x, o, b, b', hcost, hcost'⟩
  · exact .inl hlimit
  · exact .inr ⟨_, _, hcost.bind_error⟩
  · exact .inr ⟨_, _, hcost.bind_ok hcost'⟩

end Accountable
end NockDispatch
