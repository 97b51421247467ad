import NockDispatch.Proofs.Eval.Cost

/-!
# Evaluation has a cost

Every evaluation of a formula names a limit or has a cost, by induction on the budget: one step is
counted, the rule is built up from nested evaluations with the budget that is left, and so is the
evaluation of the formula that it leaves.
-/

namespace NockDispatch.Noun

variable {budget : Nat} {a f : Noun}

def reduceIn (a f : Noun) : BoundedM Noun := fun c => reduce c.limits c.budget c.depth a f

def evaluateIn (a f : Noun) : BoundedM Noun := fun c => evaluate c.limits c.budget c.depth a f

def proceed : Outcome → BoundedM Noun
  | .product p => fun _ => return p
  | .tail a f => reduceIn a f

def pursue (a f : Noun) : BoundedM Noun := fun c =>
  step (fun b g => evaluateIn b g c) a f >>= fun left => proceed left c

variable {c : Bounds} {l : Ledger}

theorem reduceIn_succ (a f : Noun) (limits : Limits) (budget : Nat) (depth : UInt64) :
    reduceIn a f ⟨limits, budget + 1, depth⟩ = (do
      LedgerM.countStep limits.steps
      pursue a f ⟨limits, budget, depth⟩) := by
  simp only [reduceIn, reduce_succ, pursue]
  congr 1
  funext _
  congr 1
  funext left
  cases left <;> rfl

/-- The budget is used up only when the step limit is reached. -/
theorem reduceIn_eq (a f : Noun) (hc : c.Hold l) :
    reduceIn a f c l =
      if c.limits.steps ≤ l.steps then .error (.stepLimit c.limits.steps) l
      else pursue a f c.spend l.count := by
  obtain ⟨limits, budget, depth⟩ := c
  cases budget with
  | zero =>
    have hspent : limits.steps ≤ l.steps := hc.budget
    rw [if_pos hspent]
    rfl
  | succ budget =>
    rw [reduceIn_succ]
    change EStateM.bind _ _ l = _
    unfold EStateM.bind LedgerM.countStep
    by_cases hspent : limits.steps ≤ l.steps
    · rw [if_pos hspent, if_pos hspent]
    · rw [if_neg hspent, if_neg hspent]
      rfl

theorem evaluateIn_eq (a f : Noun) (c : Bounds) (l : Ledger) :
    evaluateIn a f c l =
      if c.limits.depth < (c.depth + 1).toNat then
        .error (.depthLimit c.limits.depth) (l.reach (c.depth + 1))
      else reduceIn a f c.deeper (l.reach (c.depth + 1)) := by
  change EStateM.bind _ _ l = _
  unfold EStateM.bind LedgerM.enter
  by_cases hdeep : c.limits.depth < (c.depth + 1).toNat
  · rw [if_pos hdeep, if_pos hdeep]
    rfl
  · rw [if_neg hdeep, if_neg hdeep]
    rfl

theorem costs_reduce {o : Except EvalError Noun} {b : Bill} (hm : Costs (pursue a f) o b) :
    Costs (reduceIn a f) o b.step := by
  refine ⟨hm.fair, fun c l hc hb => ?_, fun c l hc hb => ?_⟩
  · have hleft : ¬ c.limits.steps ≤ l.steps := by
      have hsteps := hb.steps
      simp only [Bill.step] at hsteps
      omega
    rw [reduceIn_eq a f hc, if_neg hleft, hm.covered (hc.spend hleft) (Bounds.cover_step.mp hb),
      Ledger.charge_count]
    rfl
  · rw [reduceIn_eq a f hc]
    by_cases hspent : c.limits.steps ≤ l.steps
    · rw [if_pos hspent]
      exact .nothing (.inl rfl) _ rfl rfl
    · rw [if_neg hspent]
      have hcut := hm.cut (hc.spend hspent) (mt Bounds.cover_step.mpr hb)
      exact hcut.weaken rfl rfl rfl List.prefix_rfl List.prefix_rfl

theorem costs_evaluate {o : Except EvalError Noun} {b : Bill} (hm : Costs (reduceIn a f) o b) :
    Costs (evaluateIn a f) o b.deeper := by
  refine ⟨hm.fair, fun c l hc hb => ?_, fun c l hc hb => ?_⟩
  · obtain ⟨hfits, hrest⟩ := Bounds.cover_deeper.mp hb
    rw [evaluateIn_eq, if_neg hfits, hm.covered hc.deeper hrest]
    simp only [Bounds.deeper, Ledger.charge_reach]
  · rw [evaluateIn_eq]
    by_cases hdeep : c.limits.depth < (c.depth + 1).toNat
    · rw [if_pos hdeep]
      exact .nothing (.inr rfl) _ rfl rfl
    · rw [if_neg hdeep]
      have hcut := hm.cut hc.deeper fun hrest => hb (Bounds.cover_deeper.mpr ⟨hdeep, hrest⟩)
      exact hcut.weaken rfl rfl rfl List.prefix_rfl List.prefix_rfl

/-! ### Rules -/

theorem accountable_throw {e : EvalError} (he : ¬ e.IsLimit) :
    Accountable budget (fun _ => throw e : BoundedM α) :=
  .of_costs (.throw he)

theorem accountable_pure (x : α) : Accountable budget fun _ => Pure.pure x := .of_costs (.pure x)

theorem accountable_present (n : Nat) (found : Option Noun) :
    Accountable budget fun _ => LedgerM.present n found := by
  cases found with
  | none => exact accountable_throw id
  | some a => exact accountable_pure a

theorem accountable_produce (a : Noun) : Accountable budget fun _ => produce a :=
  (Accountable.of_costs (.store a)).bind fun b => accountable_pure (Outcome.product b)

theorem opcode_fair {code : Nat} {e : EvalError} (h : opcode code = .error e) : ¬ e.IsLimit := by
  unfold opcode at h
  split at h
  · split at h
    · cases h
    · cases h
      exact id
  · cases h
    exact id

variable {nested : Bounds → Nested} (hn : ∀ a f, Accountable budget fun c => nested c a f)
include hn

theorem apply_accountable (a : Noun) (op : Opcode) (args : Noun) :
    Accountable budget fun c => apply (nested c) a op args := by
  cases op with
  | slot =>
    rcases args with n | ⟨b, c⟩
    · exact (accountable_present n _).bind fun p => accountable_pure _
    · exact accountable_throw id
  | quote => exact accountable_pure _
  | eval =>
    rcases args with n | ⟨b, c⟩
    · exact accountable_throw id
    · exact (hn a b).bind fun s => (hn a c).bind fun f => accountable_pure _
  | isCell => exact (hn a args).bind fun p => accountable_produce _
  | increment =>
    refine (hn a args).bind fun p => ?_
    rcases p with n | ⟨p, q⟩
    · exact accountable_produce _
    · exact accountable_throw id
  | same =>
    rcases args with n | ⟨b, c⟩
    · exact accountable_throw id
    · exact (hn a b).bind fun p => (hn a c).bind fun q => accountable_produce _
  | branch =>
    rcases args with n | ⟨b, n | ⟨c, d⟩⟩
    · exact accountable_throw id
    · exact accountable_throw id
    · refine (hn a b).bind fun test => ?_
      rcases test with (_ | _ | n) | ⟨p, q⟩
      · exact accountable_pure _
      · exact accountable_pure _
      · exact accountable_throw id
      · exact accountable_throw id
  | compose =>
    rcases args with n | ⟨b, c⟩
    · exact accountable_throw id
    · exact (hn a b).bind fun s => accountable_pure _
  | push =>
    rcases args with n | ⟨b, c⟩
    · exact accountable_throw id
    · refine (hn a b).bind fun s => ?_
      exact (Accountable.of_costs (.store _)).bind fun s => accountable_pure _
  | pull =>
    rcases args with n | ⟨n | ⟨b, c⟩, d⟩
    · exact accountable_throw id
    · exact (hn a d).bind fun core => (accountable_present n _).bind fun f => accountable_pure _
    · exact accountable_throw id
  | edit =>
    rcases args with n | ⟨n | ⟨n | ⟨b₁, b₂⟩, c⟩, d⟩
    · exact accountable_throw id
    · exact accountable_throw id
    · refine (hn a c).bind fun value => (hn a d).bind fun target => ?_
      exact (accountable_present n _).bind fun p => accountable_produce p
    · exact accountable_throw id
  | hint =>
    rcases args with n | ⟨n | ⟨b, clue⟩, c⟩
    · exact accountable_throw id
    · exact accountable_pure _
    · exact (hn a clue).bind fun q => accountable_pure _

theorem step_accountable (a f : Noun) : Accountable budget fun c => step (nested c) a f := by
  rcases f with n | ⟨code | ⟨b, c⟩, d⟩
  · exact accountable_throw id
  · cases hop : opcode code with
    | ok op =>
      simp only [step, hop]
      exact (Accountable.of_costs (.record _ _ _)).bind fun _ => apply_accountable hn a op d
    | error e =>
      simp only [step, hop]
      exact accountable_throw (opcode_fair hop)
  · refine (Accountable.of_costs (.record _ _ _)).bind fun _ => (hn a (cell b c)).bind fun p => ?_
    exact (hn a d).bind fun q => accountable_produce _

/-! ### All steps -/

omit hn in
theorem evaluate_accountable (hr : ∀ a f, Accountable budget (reduceIn a f)) (a f : Noun) :
    Accountable budget (evaluateIn a f) := by
  intro c l hc hbudget
  rw [evaluateIn_eq]
  by_cases hdeep : c.limits.depth < (c.depth + 1).toNat
  · rw [if_pos hdeep]
    exact .inl ⟨_, _, rfl, trivial⟩
  · rw [if_neg hdeep]
    rcases hr a f hc.deeper hbudget with hlimit | ⟨o, b, hcost⟩
    · exact .inl hlimit
    · exact .inr ⟨o, _, costs_evaluate hcost⟩

omit hn in
theorem pursue_accountable (hr : ∀ a f, Accountable budget (reduceIn a f)) (a f : Noun) :
    Accountable budget (pursue a f) := by
  refine (step_accountable (evaluate_accountable hr) a f).bind fun left => ?_
  cases left with
  | product p => exact accountable_pure p
  | tail b g => exact hr b g

omit hn in
/-- Of one more try, one step is counted, and the rest is up to the budget before. -/
theorem reduce_accountable (budget : Nat) (a f : Noun) : Accountable budget (reduceIn a f) := by
  induction budget generalizing a f with
  | zero =>
    intro c l hc hbudget
    have hspent : c.limits.steps ≤ l.steps := by simpa [hbudget] using hc.budget
    rw [reduceIn_eq a f hc, if_pos hspent]
    exact .inl ⟨_, l, rfl, trivial⟩
  | succ budget ih =>
    intro c l hc hbudget
    rw [reduceIn_eq a f hc]
    by_cases hspent : c.limits.steps ≤ l.steps
    · rw [if_pos hspent]
      exact .inl ⟨_, l, rfl, trivial⟩
    · rw [if_neg hspent]
      have hone : c.spend.budget = budget := by simp [Bounds.spend, hbudget]
      rcases pursue_accountable ih a f (hc.spend hspent) hone with hlimit | ⟨o, b, hcost⟩
      · exact .inl hlimit
      · exact .inr ⟨o, _, costs_reduce hcost⟩

end NockDispatch.Noun
