import NockDispatch.Eval.Reduce
import NockDispatch.Nest.Call

/-!
# Nest cores

A nest check is computed in three steps. First `sut` is put into the sample of `van`. Then the
nest arm is pulled out of the result, which has to give a gate, and `tel` and `ref` are put
into the two halves of its sample: that is the nest core. At last the core is run, by
evaluating its battery on the core as a whole.

The second and the third step evaluate a formula each. How often evaluation is entered is
counted.
-/

namespace NockDispatch.Nest

/-- Why a nest check has no answer. -/
inductive NestError where
  | malformed (error : CallError)
  | interpreter (error : EvalError)
deriving DecidableEq, Repr

namespace NestError

def message : NestError → String
  | malformed error => "malformed nest call: " ++ error.message
  | interpreter error => "interpreter: " ++ error.message

/-- Whether it was the call that was at fault. -/
def isMalformed : NestError → Bool
  | malformed _ => true
  | interpreter _ => false

end NestError

/-- The graph in which answers are computed, and how often evaluation was entered. -/
structure Machine where
  graph : Graph
  entries : Nat

abbrev MachineM := EStateM NestError Machine

namespace MachineM

def store (put : Graph → α × Graph) : MachineM α := fun ⟨graph, entries⟩ =>
  let (product, graph) := put graph
  .ok product ⟨graph, entries⟩

def read (look : Graph → α) : MachineM α := fun machine =>
  .ok (look machine.graph) machine

/-- Enter evaluation once. -/
def interpret (limits : Limits) (subject formula : NodeId) : MachineM NodeId :=
  fun ⟨graph, entries⟩ =>
    match graph.nock limits subject formula with
    | (.ok product, graph) => .ok product ⟨graph, entries + 1⟩
    | (.error error, graph) => .error (.interpreter error) ⟨graph, entries + 1⟩

/-- What lies at an axis, which has to be there. -/
def present (axis : UInt64) : Option NodeId → MachineM NodeId
  | some id => return id
  | none => throw (.interpreter (.missingAxis axis.toNat))

def edit (root : NodeId) (axis : UInt64) (value : NodeId) : MachineM NodeId := do
  present axis (← store (·.wordEdit root axis value))

end MachineM

/-- Store the formula `[9 arm [0 1]]`, which pulls an arm out of its subject. -/
def pullFormula (g : Graph) (arm : UInt64) : NodeId × Graph :=
  let (arm, g) := g.atom arm.toNat
  let (nine, g) := g.atom 9
  let (zero, g) := g.atom 0
  let (one, g) := g.atom Axis.whole.toNat
  let (whole, g) := g.cell zero one
  g.triple nine arm whole

def buildCore (limits : Limits) (arm : UInt64) (args : Args) : MachineM NodeId := do
  let core ← MachineM.edit args.van Axis.sample args.sut
  let formula ← MachineM.store (pullFormula · arm)
  let gate ← MachineM.interpret limits core formula
  let gate ← MachineM.edit gate Axis.sampleHead args.tel
  MachineM.edit gate Axis.sampleTail args.ref

/-- Run a core: evaluate its battery on all of it. -/
def invoke (limits : Limits) (core : NodeId) : MachineM NodeId := do
  let battery ← MachineM.present Axis.battery (← MachineM.read (·.wordSlot? core Axis.battery))
  MachineM.interpret limits core battery

end NockDispatch.Nest
