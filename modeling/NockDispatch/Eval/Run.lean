import NockDispatch.Eval.Error
import NockDispatch.Graph.Slot

/-!
# What an evaluation works on

While it runs, an evaluation reads and extends a graph, counts its steps, goes down and up again
from one depth to another and, if asked to, keeps a trace. `EvalM` is a computation on these that
may fail; a failure keeps all that was done before it.

The depth is a machine word. From its greatest value it goes on to 0, as it does where arithmetic
is not checked; where it is checked, the program stops there. The other counters and the limits
are numbers of any size. Of a machine they are words, which no counter leaves: a step is counted
only below its limit, and the greatest depth is that of a word.

A `Context` holds the part of this that outlives an evaluation, with the limits it is held
to, so that several evaluations can share one count of steps.
-/

namespace NockDispatch

/-- How many steps may be taken, and how deep evaluations may be nested. -/
structure Limits where
  steps : Nat
  depth : Nat
deriving DecidableEq, Repr, Inhabited

def Limits.standard : Limits := ⟨10000000, 10000⟩

/-- The state of a running evaluation, in which something is noted of the depths. -/
structure Run (ν : Type := Nat) where
  graph : Graph
  steps : Nat
  depth : UInt64
  /-- What was noted so far, which is the greatest depth unless it is said otherwise. -/
  maxDepth : ν
  /-- The rules applied so far, if they are recorded at all. -/
  trace : Option Trace

/-- A depth as a number, to be compared with limits. -/
instance depthToNat : Coe UInt64 Nat := ⟨UInt64.toNat⟩

theorem toNat_succ_le (depth : UInt64) : (depth + 1).toNat ≤ depth.toNat + 1 := by
  rw [UInt64.toNat_add]
  exact Nat.mod_le _ _

abbrev EvalOn (ν : Type) := EStateM EvalError (Run ν)

abbrev EvalM := EvalOn Nat

namespace Run

/-- Go one level deeper, and note where that is. -/
@[inline] def deeper (note : ν → UInt64 → ν) : Run ν → Run ν :=
  fun ⟨graph, steps, depth, noted, trace⟩ =>
    ⟨graph, steps, depth + 1, note noted (depth + 1), trace⟩

@[inline] def shallower : Run ν → Run ν :=
  fun ⟨graph, steps, depth, noted, trace⟩ => ⟨graph, steps, depth - 1, noted, trace⟩

/-- Whatever a computation ends with, go up again. -/
@[inline] def comeUp : EStateM.Result EvalError (Run ν) α → EStateM.Result EvalError (Run ν) α
  | .ok x run => .ok x run.shallower
  | .error e run => .error e run.shallower

end Run

namespace EvalM

@[inline] def read (look : Graph → α) : EvalOn ν α := fun run =>
  .ok (look run.graph) run

@[inline] def store (put : Graph → α × Graph) : EvalOn ν α :=
  fun ⟨graph, steps, depth, noted, trace⟩ =>
    let (product, graph) := put graph
    .ok product ⟨graph, steps, depth, noted, trace⟩

/-- Count a step, if there is one left. -/
@[inline] def countStep (limit : Nat) : EvalOn ν Unit :=
  fun ⟨graph, steps, depth, noted, trace⟩ =>
    if limit ≤ steps then .error (.stepLimit limit) ⟨graph, steps, depth, noted, trace⟩
    else .ok () ⟨graph, steps + 1, depth, noted, trace⟩

@[inline] def record (rule : Rule) (subject formula : NodeId) : EvalOn ν Unit :=
  fun ⟨graph, steps, depth, noted, trace⟩ =>
    match trace with
    | some trace => .ok () ⟨graph, steps, depth, noted, some (trace.record rule subject formula)⟩
    | none => .ok () ⟨graph, steps, depth, noted, none⟩

@[inline] def deepest (maxDepth : Nat) (depth : UInt64) : Nat := max maxDepth depth

/-- Compute something one level deeper, unless that is too deep, and come up again. -/
@[inline] def nestedNoting (note : ν → UInt64 → ν) (limit : Nat) (body : EvalOn ν α) : EvalOn ν α :=
  fun run =>
    let run := run.deeper note
    Run.comeUp (if limit < run.depth then .error (.depthLimit limit) run else body run)

@[inline] def nested (limit : Nat) (body : EvalM α) : EvalM α := nestedNoting deepest limit body

end EvalM

/-- What a sequence of evaluations shares: its limits, its counters and its trace. -/
structure Context where
  limits : Limits
  steps : Nat
  /-- The depth from which the next evaluation goes down. -/
  depth : UInt64
  maxDepth : Nat
  trace : Option Trace
deriving Inhabited

def Context.fresh (limits : Limits) : Context := ⟨limits, 0, 0, 0, none⟩

def Context.traced (context : Context) : Context := { context with trace := some .empty }

end NockDispatch
