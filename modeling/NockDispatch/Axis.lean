/-!
# Axes

An axis addresses a slot of a noun. Written in binary, the digits after the leading one
are the way down from the root: a zero goes to the head of a cell, a one to its tail.
Axis zero has no leading one and addresses nothing.

Axes come as natural numbers of any size and as 64-bit words. `Axis.path` and
`Axis.wordPath` read the way down off either, and `Axis.peg` joins two words into the axis
of a slot inside a slot.
-/

namespace NockDispatch

inductive Side where
  | head
  | tail
deriving DecidableEq, Repr

/-- A zero digit of an axis goes to the head and a one digit to the tail. -/
def Side.ofBit (bit : Bool) : Side :=
  if bit then .tail else .head

namespace Axis

def whole : UInt64 := 1

/-- The code of a core. -/
def battery : UInt64 := 2

/-- The argument of a gate. -/
def sample : UInt64 := 6

/-- What a gate closes over. -/
def context : UInt64 := 7

def sampleHead : UInt64 := 12

def sampleTail : UInt64 := 13

/-- The way down to an axis of any size: its digits after the leading one, the highest first. -/
def path (axis : Nat) : Option (List Side) :=
  if axis = 0 then none
  else some ((List.range axis.log2).reverse.map fun i => Side.ofBit (axis.testBit i))

/-- The way down to an axis held in a word, read off by shifting. -/
def wordPath (axis : UInt64) : Option (List Side) :=
  if axis = 0 then none
  else
    some ((List.range axis.log2.toNat).reverse.map fun i =>
      Side.ofBit ((axis >>> i.toUInt64) &&& 1 == 1))

/-- The axis, seen from the root, of slot `inner` of the noun in slot `outer`: the digits of
`outer` and then those of `inner` after its leading one. There is none when either axis is
zero, or when the digits do not fit in a word. -/
def peg (outer inner : UInt64) : Option UInt64 :=
  if outer = 0 ∨ inner = 0 then none
  else
    let shift := inner.log2
    if 63 - outer.log2 < shift then none
    else some ((outer <<< shift) ||| (inner ^^^ ((1 : UInt64) <<< shift)))

theorem path_one : path 1 = some [] := by decide

theorem path_eq_none_iff {axis : Nat} : path axis = none ↔ axis = 0 := by
  simp [path]

end Axis
end NockDispatch
