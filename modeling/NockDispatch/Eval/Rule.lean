import NockDispatch.Eval.Run

/-!
# The rules of Nock

Each rule is stated on its own, as what it does with a subject and the arguments of a
formula, in terms of a given way to evaluate the formulas inside it. Most rules end in a
product. The others end in one more formula, to be evaluated in place of the one at hand
and at the same depth.

The shape of a formula's arguments is checked before anything inside it is evaluated.
-/

namespace NockDispatch

inductive Outcome where
  | product (id : NodeId)
  /-- The product of another formula. -/
  | tail (subject formula : NodeId)

namespace Rule

/-- A way to evaluate a formula that is nested in another one. -/
abbrev Nested (ν : Type := Nat) := NodeId → NodeId → EvalOn ν NodeId

@[inline] def pair (op : Opcode) (id : NodeId) : EvalOn ν (NodeId × NodeId) := do
  match ← EvalM.read (·.cell? id) with
  | some halves => return halves
  | none => throw (.badArguments op)

@[inline] def axis (op : Opcode) (id : NodeId) : EvalOn ν Nat := do
  match ← EvalM.read (·.atom? id) with
  | some axis => return axis
  | none => throw (.badArguments op)

/-- What lies at an axis, which has to be there. -/
@[inline] def present (axis : Nat) (found : Option NodeId) : EvalOn ν NodeId :=
  match found with
  | some id => return id
  | none => throw (.missingAxis axis)

/-- The noun for an answer: 0 for yes and 1 for no. -/
@[inline] def answer (yes : Bool) : EvalOn ν Outcome :=
  return .product (← EvalM.store (·.atom (if yes then 0 else 1)))

variable (nested : Nested ν) (subject args : NodeId)

def distribute (formula : NodeId) : EvalOn ν Outcome := do
  let head ← nested subject formula
  let tail ← nested subject args
  return .product (← EvalM.store (·.cell head tail))

def slot : EvalOn ν Outcome := do
  let axis ← axis .slot args
  return .product (← present axis (← EvalM.read (·.slot? subject axis)))

def quote : EvalOn ν Outcome :=
  return .product args

def eval : EvalOn ν Outcome := do
  let (b, c) ← pair .eval args
  let newSubject ← nested subject b
  let newFormula ← nested subject c
  return .tail newSubject newFormula

def isCell : EvalOn ν Outcome := do
  let product ← nested subject args
  answer (← EvalM.read (·.cell? product)).isSome

def increment : EvalOn ν Outcome := do
  let product ← nested subject args
  match ← EvalM.read (·.atom? product) with
  | some value => return .product (← EvalM.store (·.atom (value + 1)))
  | none => throw .notAnAtom

/-- `*[a 5 b c]` is `=[*[a b] *[a c]]`. Nodes of one graph hold the same noun just when their
ids are equal. -/
def same : EvalOn ν Outcome := do
  let (b, c) ← pair .same args
  let left ← nested subject b
  let right ← nested subject c
  answer (left == right)

def branch : EvalOn ν Outcome := do
  let (b, cd) ← pair .branch args
  let (c, d) ← pair .branch cd
  let test ← nested subject b
  match ← EvalM.read (·.loobean? test) with
  | some true => return .tail subject c
  | some false => return .tail subject d
  | none => throw .notLoobean

def compose : EvalOn ν Outcome := do
  let (b, c) ← pair .compose args
  let newSubject ← nested subject b
  return .tail newSubject c

def push : EvalOn ν Outcome := do
  let (b, c) ← pair .push args
  let pushed ← nested subject b
  let newSubject ← EvalM.store (·.cell pushed subject)
  return .tail newSubject c

/-- `*[a 9 b c]` takes the core `*[a c]` and is the product of its arm at axis `b` on the core
itself. -/
def pull : EvalOn ν Outcome := do
  let (b, c) ← pair .pull args
  let axis ← axis .pull b
  let core ← nested subject c
  let arm ← present axis (← EvalM.read (·.slot? core axis))
  return .tail core arm

def edit : EvalOn ν Outcome := do
  let (bc, d) ← pair .edit args
  let (b, c) ← pair .edit bc
  let axis ← axis .edit b
  let value ← nested subject c
  let target ← nested subject d
  return .product (← present axis (← EvalM.store (·.edit target axis value)))

/-- `*[a 11 b c]` is `*[a c]`. If `b` is a cell then its tail is evaluated too, and the product
of that is not used. -/
def hint : EvalOn ν Outcome := do
  let (b, c) ← pair .hint args
  match ← EvalM.read (·.cell? b) with
  | some (_, clue) =>
    let _ ← nested subject clue
    return .tail subject c
  | none => return .tail subject c

def apply (op : Opcode) : EvalOn ν Outcome :=
  match op with
  | .slot => slot subject args
  | .quote => quote args
  | .eval => eval nested subject args
  | .isCell => isCell nested subject args
  | .increment => increment nested subject args
  | .same => same nested subject args
  | .branch => branch nested subject args
  | .compose => compose nested subject args
  | .push => push nested subject args
  | .pull => pull nested subject args
  | .edit => edit nested subject args
  | .hint => hint nested subject args

end Rule
end NockDispatch
