import NockDispatch.Graph.Slot

/-!
# Nest calls

A nest check asks whether the type `ref` nests inside the type `sut`. It is given four nouns:
`van`, the core that answers, with room for `sut` in its sample; `sut` itself; `tel`, a
loobean; and `ref`. A call is a gate `[battery [[tel ref] van]]`, whose `van` already holds its
`sut`. The same four can also be given one by one, and the same conditions hold for them.
-/

namespace NockDispatch.Nest

/-- Why a noun is no nest call. -/
inductive CallError where
  | missingAxis (axis : UInt64)
  | telNotAtom
  | telOutOfRange
  | missingSubject
deriving DecidableEq, Repr

def CallError.message : CallError → String
  | missingAxis axis => s!"call has no slot at axis {axis.toNat}"
  | telNotAtom => "tel is a cell"
  | telOutOfRange => "tel is not 0 or 1"
  | missingSubject => "van has no subject type at axis 6"

/-- What a nest check is given. -/
structure Args where
  van : NodeId
  sut : NodeId
  tel : NodeId
  ref : NodeId
deriving DecidableEq, Repr

namespace Args

def slotOf (g : Graph) (gate : NodeId) (axis : UInt64) : Except CallError NodeId :=
  match g.wordSlot? gate axis with
  | some id => .ok id
  | none => .error (.missingAxis axis)

/-- `tel` has to be a loobean. -/
def checkTel (g : Graph) (tel : NodeId) : Except CallError Unit :=
  match g.atom? tel with
  | none => .error .telNotAtom
  | some value => if value ≤ 1 then .ok () else .error .telOutOfRange

def sampleOf (g : Graph) (van : NodeId) : Except CallError NodeId :=
  match g.wordSlot? van Axis.sample with
  | some sut => .ok sut
  | none => .error .missingSubject

def ofGate (g : Graph) (gate : NodeId) : Except CallError Args := do
  let tel ← slotOf g gate Axis.sampleHead
  let ref ← slotOf g gate Axis.sampleTail
  let van ← slotOf g gate Axis.context
  checkTel g tel
  let sut ← sampleOf g van
  return ⟨van, sut, tel, ref⟩

/-- Take the nouns of a nest check one by one. -/
def ofParts (g : Graph) (van sut tel ref : NodeId) : Except CallError Args := do
  checkTel g tel
  let _ ← sampleOf g van
  return ⟨van, sut, tel, ref⟩

end Args
end NockDispatch.Nest
