/-!
# Nouns

A noun is an atom or a cell. The relations of this module are the published definitions of
a slot of a noun and of a noun with a slot replaced; both take an axis apart from its lowest
digit on, and neither knows anything of graphs.
-/

namespace NockDispatch

/-- An atom is a natural number, and a cell is an ordered pair of nouns. -/
inductive Noun where
  | atom (value : Nat)
  | cell (head tail : Noun)
deriving DecidableEq, Repr, Inhabited

namespace Noun

/-- `Slot n a b` says that `/[n a]` is `b`. -/
inductive Slot : Nat → Noun → Noun → Prop
  /-- `/[1 a]` is `a`. -/
  | whole {a} : Slot 1 a a
  /-- `/[(n + n) a]` is `/[2 /[n a]]`. -/
  | head {n a b c} : Slot n a (cell b c) → Slot (2 * n) a b
  /-- `/[(n + n + 1) a]` is `/[3 /[n a]]`. -/
  | tail {n a b c} : Slot n a (cell b c) → Slot (2 * n + 1) a c

/-- `Edit n b a c` says that `#[n b a]` is `c`, which is `a` with `b` in its slot at `n`. -/
inductive Edit : Nat → Noun → Noun → Noun → Prop
  /-- `#[1 a b]` is `a`. -/
  | whole {a b} : Edit 1 a b a
  /-- `#[(n + n) b a]` is `#[n [b /[(n + n + 1) a]] a]`. -/
  | head {n a b c sibling} : Slot (2 * n + 1) a sibling → Edit n (cell b sibling) a c →
      Edit (2 * n) b a c
  /-- `#[(n + n + 1) b a]` is `#[n [/[(n + n) a] b] a]`. -/
  | tail {n a b c sibling} : Slot (2 * n) a sibling → Edit n (cell sibling b) a c →
      Edit (2 * n + 1) b a c

theorem Slot.axis_pos {n : Nat} {a b : Noun} (slot : Slot n a b) : 0 < n := by
  induction slot <;> omega

theorem Edit.axis_pos {n : Nat} {a b c : Noun} (edit : Edit n b a c) : 0 < n := by
  induction edit <;> omega

end Noun
end NockDispatch
