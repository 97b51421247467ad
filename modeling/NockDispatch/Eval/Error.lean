import NockDispatch.Trace

/-!
# Failures of evaluation

A formula fails to have a product in one of eight ways. Six of them are faults of the
formula or its subject; the other two say that a limit was reached, and name the limit.
-/

namespace NockDispatch

/-- Why an evaluation ended without a product. -/
inductive EvalError where
  | atomFormula
  /-- The head of the formula is an atom that is no opcode. An atom too large for a word is
  reported as the largest word. -/
  | badOpcode (code : UInt64)
  | badArguments (op : Opcode)
  | missingAxis (axis : Nat)
  | notAnAtom
  | notLoobean
  | stepLimit (limit : Nat)
  | depthLimit (limit : Nat)
deriving DecidableEq, Repr

namespace EvalError

def message : EvalError → String
  | atomFormula => "formula is an atom"
  | badOpcode code => s!"unknown opcode {code.toNat}"
  | badArguments op => s!"malformed arguments to opcode {op.toNat}"
  | missingAxis axis => s!"no slot at axis {axis}"
  | notAnAtom => "increment of a cell"
  | notLoobean => "if-test produced a non-loobean"
  | stepLimit limit => s!"step limit {limit} exceeded"
  | depthLimit limit => s!"depth limit {limit} exceeded"

/-- The two errors that larger limits could have avoided. -/
def IsLimit : EvalError → Prop
  | stepLimit _ => True
  | depthLimit _ => True
  | _ => False

instance : DecidablePred IsLimit := fun error => by
  cases error <;> unfold IsLimit <;> infer_instance

end EvalError
end NockDispatch
