import NockDispatch.Graph.Basic

/-!
# Opcodes, rules and traces

A formula whose head is a cell is evaluated by distributing the subject over its two halves;
otherwise its head is an opcode, of which there are twelve. A trace lists the rules that
were applied, in order, each with the subject and the formula it was applied to.
-/

namespace NockDispatch

/-- The twelve operations that a formula can name. -/
inductive Opcode where
  | slot
  | quote
  | eval
  | isCell
  | increment
  | same
  | branch
  | compose
  | push
  | pull
  | edit
  | hint
deriving DecidableEq, Hashable, Repr

namespace Opcode

def ofWord? (code : UInt64) : Option Opcode :=
  match code with
  | 0 => some slot
  | 1 => some quote
  | 2 => some eval
  | 3 => some isCell
  | 4 => some increment
  | 5 => some same
  | 6 => some branch
  | 7 => some compose
  | 8 => some push
  | 9 => some pull
  | 10 => some edit
  | 11 => some hint
  | _ => none

def toNat : Opcode → Nat
  | slot => 0
  | quote => 1
  | eval => 2
  | isCell => 3
  | increment => 4
  | same => 5
  | branch => 6
  | compose => 7
  | push => 8
  | pull => 9
  | edit => 10
  | hint => 11

end Opcode

/-- What the head of a formula asks for. -/
inductive Rule where
  | autocons
  | opcode (op : Opcode)
deriving DecidableEq, Hashable, Repr

structure Event where
  step : Nat
  rule : Rule
  subject : NodeId
  formula : NodeId
deriving DecidableEq, Repr

/-- The rules applied so far, and the product of the last evaluation that had one. -/
structure Trace where
  events : Array Event
  result : Option NodeId
deriving Inhabited

namespace Trace

def empty : Trace := ⟨#[], none⟩

/-- Add an event, numbered by the events before it. -/
def record (t : Trace) (rule : Rule) (subject formula : NodeId) : Trace :=
  { t with events := t.events.push ⟨t.events.size, rule, subject, formula⟩ }

def count (t : Trace) (rule : Rule) : Nat :=
  t.events.countP fun event => event.rule == rule

end Trace
end NockDispatch
