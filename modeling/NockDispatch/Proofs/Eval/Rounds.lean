import NockDispatch.Eval.Reduce

/-!
# Rounds of the loop

One round counts a step, applies one rule and leaves everything else to a loop that goes on from
there, whatever that loop does. Evaluation within a budget is as many rounds as the budget allows,
one inside the other.
-/

namespace NockDispatch

/-! ## One step and one level -/

theorem EvalM.countStep_bind_apply (limit : Nat) (next : EvalOn ν α) (run : Run ν) :
    (countStep limit >>= fun _ => next) run =
      if limit ≤ run.steps then .error (.stepLimit limit) run
      else next { run with steps := run.steps + 1 } := by
  change EStateM.bind _ _ _ = _
  unfold EStateM.bind countStep
  by_cases hspent : limit ≤ run.steps
  · simp only [if_pos hspent]
  · simp only [if_neg hspent]

theorem EvalM.nestedNoting_apply (note : ν → UInt64 → ν) (limit : Nat) (body : EvalOn ν α)
    (run : Run ν) : nestedNoting note limit body run =
      if limit < (run.depth + 1).toNat then .error (.depthLimit limit) (run.deeper note).shallower
      else Run.comeUp (body (run.deeper note)) := by
  change Run.comeUp (if limit < (run.depth + 1).toNat then _ else _) = _
  split <;> rfl

/-! ## Rounds -/

/-- A way to evaluate a formula at the depth that was reached. -/
abbrev Loop (ν : Type := Nat) := NodeId → NodeId → EvalOn ν NodeId

namespace Loop

/-- Nothing is tried any more. -/
def spent (limit : Nat) : Loop ν := fun _ _ => throw (.stepLimit limit)

/-- Count a step and apply a rule. Nested formulas are left to `again` one level deeper, and a
formula that takes the place of the one at hand is left to `again` where it is. -/
def round (limits : Limits) (note : ν → UInt64 → ν) (again : Loop ν) : Loop ν :=
  fun subject formula => do
    EvalM.countStep limits.steps
    let nested := fun subject formula =>
      EvalM.nestedNoting note limits.depth (again subject formula)
    match ← step nested subject formula with
    | .product id => return id
    | .tail subject formula => again subject formula

def rounds (limits : Limits) (note : ν → UInt64 → ν) : Nat → Loop ν → Loop ν
  | 0, again => again
  | n + 1, again => round limits note (rounds limits note n again)

end Loop

theorem reduce_eq_rounds (limits : Limits) (budget : Nat) :
    reduce limits budget =
      Loop.rounds limits EvalM.deepest budget (Loop.spent limits.steps) := by
  induction budget with
  | zero => rfl
  | succ budget ih =>
    rw [Loop.rounds, ← ih]
    rfl

end NockDispatch
