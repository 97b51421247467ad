import NockDispatch.Memo
import NockDispatch.Nest.Core
import NockDispatch.Settings

/-!
# Dispatch

A dispatcher answers nest calls. A direct request always computes its answer. Any other
request looks the answer up in a memo first; if it is not there, the answer is computed and
kept, provided that there is one. With the cache off every request is direct.

Answers are kept under the slot of `van` at the key axis, or under `van` whole if it has no
such slot, and under `sut`, `tel` and `ref`.
-/

namespace NockDispatch.Nest

/-- What a dispatcher works on: a memo, and a machine that computes what is not there. -/
structure Desk where
  memo : Memo
  machine : Machine

abbrev DeskM := EStateM NestError Desk

/-- Leave the memo alone. -/
def DeskM.compute (act : MachineM α) : DeskM α := fun ⟨memo, machine⟩ =>
  match act machine with
  | .ok answer machine => .ok answer ⟨memo, machine⟩
  | .error error machine => .error error ⟨memo, machine⟩

/-- The key under which an answer is kept. -/
def keyOf (g : Graph) (keyAxis : UInt64) (args : Args) : Memo.Key where
  operation := Memo.nestOperation
  van := (g.wordSlot? args.van keyAxis).getD args.van
  sut := args.sut
  tel := args.tel
  ref := args.ref

def DeskM.find (key : Memo.Key) : DeskM (Option NodeId) := fun ⟨memo, machine⟩ =>
  let (found, memo) := memo.find machine.graph.id key
  .ok found ⟨memo, machine⟩

def DeskM.save (key : Memo.Key) (product : NodeId) : DeskM Unit := fun ⟨memo, machine⟩ =>
  .ok () ⟨memo.save machine.graph.id key product, machine⟩

def computeNest (settings : Settings) (args : Args) : MachineM NodeId := do
  let core ← buildCore settings.limits settings.nestArm args
  invoke settings.limits core

/-- Answer a nest check without the memo. -/
def nestDirect (settings : Settings) (args : Args) : DeskM NodeId :=
  DeskM.compute (computeNest settings args)

def nest (settings : Settings) (args : Args) : DeskM NodeId := do
  if settings.cache then
    let key ← DeskM.compute (MachineM.read (keyOf · settings.keyAxis args))
    match ← DeskM.find key with
    | some product => return product
    | none =>
      let product ← nestDirect settings args
      DeskM.save key product
      return product
  else nestDirect settings args

/-- Take the nouns of a nest check from somewhere, and fail if they are not fit for one. -/
def takeArgs (take : Graph → Except CallError Args) : DeskM Args := do
  match ← DeskM.compute (MachineM.read take) with
  | .ok args => return args
  | .error error => throw (.malformed error)

def call (settings : Settings) (gate : NodeId) : DeskM NodeId := do
  nest settings (← takeArgs (Args.ofGate · gate))

def callDirect (settings : Settings) (gate : NodeId) : DeskM NodeId := do
  nestDirect settings (← takeArgs (Args.ofGate · gate))

end NockDispatch.Nest
