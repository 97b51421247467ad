import NockDispatch.Eval.Reduce
import NockDispatch.Proofs.Noun.Way
import NockDispatch.Noun.Reduction

/-!
# Evaluation of nouns

The same evaluation, told of nouns instead of ids. A ledger stands in for the graph: it lists
the nouns that are stored, in order, next to the counters and the rules that were applied.
Nothing is ever looked up in it, and so what an evaluation does depends on the nouns of its
subject and formula, its limits and its counters alone.
-/

namespace NockDispatch

structure Application where
  rule : Rule
  subject : Noun
  formula : Noun

/-- What an evaluation of nouns leaves beside its product. -/
structure Ledger where
  stored : List Noun
  steps : Nat
  maxDepth : Nat
  applied : List Application

abbrev LedgerM := EStateM EvalError Ledger

def Ledger.fresh (steps maxDepth : Nat) : Ledger := ⟨[], steps, maxDepth, []⟩

namespace LedgerM

def store (a : Noun) : LedgerM Noun := fun l => .ok a { l with stored := l.stored ++ [a] }

def countStep (limit : Nat) : LedgerM Unit := fun l =>
  if limit ≤ l.steps then .error (.stepLimit limit) l else .ok () { l with steps := l.steps + 1 }

def enter (limit : Nat) (depth : UInt64) : LedgerM Unit := fun l =>
  let l := { l with maxDepth := max l.maxDepth depth.toNat }
  if limit < depth.toNat then .error (.depthLimit limit) l else .ok () l

def record (rule : Rule) (a f : Noun) : LedgerM Unit := fun l =>
  .ok () { l with applied := l.applied ++ [⟨rule, a, f⟩] }

def present (axis : Nat) : Option Noun → LedgerM Noun
  | some a => return a
  | none => throw (.missingAxis axis)

end LedgerM

namespace Noun

/-- What a rule leaves: a product, or a subject and a formula to go on with. -/
inductive Outcome where
  | product (a : Noun)
  | tail (a f : Noun)

abbrev Nested := Noun → Noun → LedgerM Noun

def produce (a : Noun) : LedgerM Outcome := return .product (← LedgerM.store a)

def apply (nested : Nested) (a : Noun) : Opcode → Noun → LedgerM Outcome
  | .slot, .atom n => return .product (← LedgerM.present n (a.slot? n))
  | .quote, b => return .product b
  | .eval, .cell b c => do
    let s ← nested a b
    let f ← nested a c
    return .tail s f
  | .isCell, b => do produce (loobean (← nested a b).isCell)
  | .increment, b => do
    match ← nested a b with
    | .atom n => produce (.atom (n + 1))
    | .cell _ _ => throw .notAnAtom
  | .same, .cell b c => do
    let p ← nested a b
    let q ← nested a c
    produce (loobean (p = q))
  | .branch, .cell b (.cell c d) => do
    match ← nested a b with
    | .atom 0 => return .tail a c
    | .atom 1 => return .tail a d
    | _ => throw .notLoobean
  | .compose, .cell b c => return .tail (← nested a b) c
  | .push, .cell b c => do
    let s ← nested a b
    return .tail (← LedgerM.store (.cell s a)) c
  | .pull, .cell (.atom n) c => do
    let core ← nested a c
    return .tail core (← LedgerM.present n (core.slot? n))
  | .edit, .cell (.cell (.atom n) c) d => do
    let value ← nested a c
    let target ← nested a d
    produce (← LedgerM.present n (target.edit? n value))
  | .hint, .cell (.cell _ clue) c => do
    let _ ← nested a clue
    return .tail a c
  | .hint, .cell (.atom _) c => return .tail a c
  | op, _ => throw (.badArguments op)

def opcode (code : Nat) : Except EvalError Opcode :=
  if code < UInt64.size then
    match Opcode.ofWord? code.toUInt64 with
    | some op => .ok op
    | none => .error (.badOpcode code.toUInt64)
  else .error (.badOpcode (-1))

def step (nested : Nested) (a : Noun) : Noun → LedgerM Outcome
  | .atom _ => throw .atomFormula
  | .cell (.cell b c) d => do
    LedgerM.record .autocons a (.cell (.cell b c) d)
    let p ← nested a (.cell b c)
    let q ← nested a d
    produce (.cell p q)
  | .cell (.atom code) args =>
    match opcode code with
    | .ok op => do
      LedgerM.record (.opcode op) a (.cell (.atom code) args)
      apply nested a op args
    | .error e => throw e

/-- Evaluate a formula at a depth, trying at most a number of steps. -/
def reduce (limits : Limits) (budget : Nat) (depth : UInt64) (a f : Noun) : LedgerM Noun :=
  match budget with
  | 0 => throw (.stepLimit limits.steps)
  | budget + 1 => do
    LedgerM.countStep limits.steps
    let nested := fun a f => do
      LedgerM.enter limits.depth (depth + 1)
      reduce limits budget (depth + 1) a f
    match ← step nested a f with
    | .product p => return p
    | .tail a f => reduce limits budget depth a f

def evaluate (limits : Limits) (budget : Nat) (depth : UInt64) (a f : Noun) : LedgerM Noun := do
  LedgerM.enter limits.depth (depth + 1)
  reduce limits budget (depth + 1) a f

end Noun
end NockDispatch
