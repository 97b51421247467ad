import NockDispatch.Axis
import NockDispatch.Eval.Run
import NockDispatch.Text.Blank
import NockDispatch.Text.Literal

/-!
# Settings

A dispatcher is set up by five variables, each of which is read on its own. A variable that is
missing, or whose text is not of its kind, leaves its setting as it is by default. Blanks
around a text mean nothing.
-/

namespace NockDispatch

structure Settings where
  /-- Whether answers are looked up in a memo and kept there. -/
  cache : Bool
  nestArm : UInt64
  /-- The axis of the core that answers are kept under. Any axis but the whole lets cores that
  agree on that slot share their answers; a core without the slot is used whole. -/
  keyAxis : UInt64
  limits : Limits
deriving DecidableEq, Repr

namespace Settings

def standard : Settings := ⟨true, Axis.battery, Axis.whole, Limits.standard⟩

/-- A switch that is on or off, written in one of four ways, in any case. -/
def flag? (text : String) : Option Bool :=
  let word := String.ofList ((Text.trim text.toList).map Char.toLower)
  if word ∈ ["1", "on", "true", "yes"] then some true
  else if word ∈ ["0", "off", "false", "no"] then some false
  else none

def word? (text : String) : Option UInt64 :=
  match Text.Decimal.number? (Text.trim text.toList) with
  | some value => if value < UInt64.size then some value.toUInt64 else none
  | none => none

def axis? (text : String) : Option UInt64 :=
  match word? text with
  | some axis => if axis = 0 then none else some axis
  | none => none

def ofLookup (lookup : String → Option String) : Settings where
  cache := ((lookup "NEST_CACHE").bind flag?).getD standard.cache
  nestArm := ((lookup "NEST_ARM").bind axis?).getD standard.nestArm
  keyAxis := ((lookup "NEST_KEY_AXIS").bind axis?).getD standard.keyAxis
  limits :=
    { steps :=
        (((lookup "NEST_STEP_LIMIT").bind word?).map UInt64.toNat).getD standard.limits.steps
      depth :=
        (((lookup "NEST_DEPTH_LIMIT").bind word?).map UInt64.toNat).getD standard.limits.depth }

theorem axis?_ne_zero {text : String} {axis : UInt64} (h : axis? text = some axis) :
    axis ≠ 0 := by
  unfold axis? at h
  split at h
  · split at h
    · contradiction
    · next nonzero =>
      cases h
      exact nonzero
  · contradiction

end Settings
end NockDispatch
