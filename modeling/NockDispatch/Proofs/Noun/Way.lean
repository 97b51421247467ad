import NockDispatch.Axis
import NockDispatch.Noun.Basic

/-!
# Ways through nouns

The published rules read an axis from its lowest digit on. A way down is read from the
highest. Here slots and edits are computed along ways, and these computations give exactly
the nouns that the published relations allow.
-/

namespace NockDispatch

namespace Axis

theorem path_step {n : Nat} (hn : n ≠ 0) (bit : Bool) :
    path (2 * n + bit.toNat) = (path n).map (· ++ [Side.ofBit bit]) := by
  have hb : bit.toNat ≤ 1 := bit.toNat_le
  have hhalf : (2 * n + bit.toNat) / 2 = n := by omega
  have hlog : (2 * n + bit.toNat).log2 = n.log2 + 1 := by
    rw [Nat.log2_def, if_pos (by omega), hhalf]
  have hlow : (2 * n + bit.toNat).testBit 0 = bit := by
    rw [Nat.testBit_zero]
    cases bit <;> simp
  have hhigh : ∀ i, (2 * n + bit.toNat).testBit (i + 1) = n.testBit i := by
    intro i
    rw [Nat.testBit_succ, hhalf]
  rw [path, if_neg (by omega), path, if_neg hn, hlog, List.range_succ_eq_map]
  simp [hlow, hhigh, Function.comp_def]

theorem path_double {n : Nat} (hn : n ≠ 0) :
    path (2 * n) = (path n).map (· ++ [.head]) := path_step hn false

theorem path_double_add_one {n : Nat} (hn : n ≠ 0) :
    path (2 * n + 1) = (path n).map (· ++ [.tail]) := path_step hn true

theorem wordDigit_eq (axis : UInt64) {i : Nat} (hi : i < 64) :
    ((axis >>> i.toUInt64) &&& 1 == 1) = axis.toNat.testBit i := by
  have hi' : i.toUInt64.toNat % 64 = i := by
    simp only [UInt64.toNat_ofNat']
    omega
  rw [Bool.eq_iff_iff, beq_iff_eq, ← UInt64.toNat_inj, UInt64.toNat_and, UInt64.toNat_shiftRight,
    hi', Nat.testBit_eq_decide_div_mod_eq]
  simp [Nat.and_one_is_mod, Nat.shiftRight_eq_div_pow]

theorem wordPath_eq (axis : UInt64) : wordPath axis = path axis.toNat := by
  have hlog : axis.log2.toNat = axis.toNat.log2 := rfl
  by_cases hzero : axis = 0
  · subst hzero
    rfl
  · have hne : axis.toNat ≠ 0 := fun h => hzero (UInt64.toNat_inj.mp h)
    have hbound : axis.toNat.log2 < 64 := (Nat.log2_lt hne).mpr axis.toNat_lt
    rw [wordPath, path, if_neg hzero, if_neg hne, hlog, Option.some.injEq]
    apply List.map_congr_left
    intro i hi
    simp only [List.mem_reverse, List.mem_range] at hi
    rw [wordDigit_eq axis (by omega)]

end Axis

def Side.other : Side → Side
  | .head => .tail
  | .tail => .head

namespace Noun

def walk : Noun → List Side → Option Noun
  | a, [] => some a
  | cell b _, .head :: way => b.walk way
  | cell _ c, .tail :: way => c.walk way
  | atom _, _ :: _ => none

/-- The noun `a` with `b` at the end of a way. -/
def replace (b : Noun) : Noun → List Side → Option Noun
  | _, [] => some b
  | cell c d, .head :: way => (replace b c way).map (cell · d)
  | cell c d, .tail :: way => (replace b d way).map (cell c ·)
  | atom _, _ :: _ => none

def slot? (a : Noun) (n : Nat) : Option Noun := (Axis.path n).bind a.walk

def edit? (a : Noun) (n : Nat) (b : Noun) : Option Noun := (Axis.path n).bind (replace b a)

/-- A cell with `a` on one side and `b` on the other. -/
def join (a b : Noun) : Side → Noun
  | .head => cell a b
  | .tail => cell b a

theorem walk_append (a : Noun) (upper lower : List Side) :
    a.walk (upper ++ lower) = (a.walk upper).bind (·.walk lower) := by
  induction upper generalizing a with
  | nil => simp [walk]
  | cons side upper ih => cases a <;> cases side <;> simp [walk, ih]

theorem walk_single {a b : Noun} {side : Side} (h : a.walk [side] = some b) :
    ∃ c, a = join b c side := by
  cases a <;> cases side <;> simp_all [walk, join]

/-- A replacement just below the end of a way replaces the whole cell at its end. -/
theorem replace_concat (b a : Noun) (way : List Side) (side : Side) :
    replace b a (way ++ [side]) =
      (a.walk (way ++ [side.other])).bind fun c => replace (join b c side) a way := by
  induction way generalizing a with
  | nil => cases a <;> cases side <;> simp [replace, walk, join, Side.other]
  | cons first way ih =>
    cases a with
    | atom n => cases first <;> rfl
    | cell h t =>
      cases first <;>
        simp only [List.cons_append, replace, walk, ih, Option.map_bind, Function.comp_def]

theorem replace_isSome (b a : Noun) (way : List Side) :
    (replace b a way).isSome = (a.walk way).isSome := by
  induction way generalizing a with
  | nil => simp [replace, walk]
  | cons side way ih => cases a <;> cases side <;> simp [replace, walk, ih]

theorem slot?_one (a : Noun) : a.slot? 1 = some a := by
  simp [slot?, Axis.path_one, walk]

theorem edit?_one (a b : Noun) : a.edit? 1 b = some b := by
  simp [edit?, Axis.path_one, replace]

theorem edit?_isSome (a : Noun) (n : Nat) (b : Noun) :
    (a.edit? n b).isSome = (a.slot? n).isSome := by
  unfold edit? slot?
  cases Axis.path n with
  | none => rfl
  | some way => exact replace_isSome b a way

/-! ## The published relations -/

theorem slot?_of_slot {n : Nat} {a b : Noun} (h : Slot n a b) : a.slot? n = some b := by
  induction h with
  | whole => exact slot?_one _
  | head hs ih =>
    obtain ⟨way, hway, hwalk⟩ := Option.bind_eq_some_iff.mp ih
    simp [slot?, Axis.path_double (Nat.ne_of_gt hs.axis_pos), hway, walk_append, hwalk, walk]
  | tail hs ih =>
    obtain ⟨way, hway, hwalk⟩ := Option.bind_eq_some_iff.mp ih
    simp [slot?, Axis.path_double_add_one (Nat.ne_of_gt hs.axis_pos), hway, walk_append, hwalk,
      walk]

theorem axis_cases (n : Nat) :
    n = 0 ∨ n = 1 ∨ ∃ m bit, m ≠ 0 ∧ m < n ∧ n = 2 * m + Bool.toNat bit := by
  rcases Nat.lt_or_ge n 2 with h | h
  · omega
  · refine .inr (.inr ⟨n / 2, n % 2 == 1, by omega, by omega, ?_⟩)
    rcases Nat.mod_two_eq_zero_or_one n with hm | hm <;> simp [hm] <;> omega

theorem Slot.step {n : Nat} {a b c : Noun} {bit : Bool}
    (h : Slot n a (join b c (Side.ofBit bit))) : Slot (2 * n + bit.toNat) a b := by
  cases bit with
  | false => exact .head h
  | true => exact .tail h

theorem slot_of_slot? {n : Nat} {a b : Noun} (h : a.slot? n = some b) : Slot n a b := by
  induction n using Nat.strongRecOn generalizing b with
  | _ n ih =>
    rcases axis_cases n with rfl | rfl | ⟨m, bit, hm, hlt, rfl⟩
    · cases h
    · rw [slot?_one] at h
      cases h
      exact .whole
    · rw [slot?, Axis.path_step hm] at h
      obtain ⟨way, hway, hwalk⟩ := Option.bind_eq_some_iff.mp h
      obtain ⟨upper, hupper, rfl⟩ := Option.map_eq_some_iff.mp hway
      rw [walk_append] at hwalk
      obtain ⟨d, hd, hside⟩ := Option.bind_eq_some_iff.mp hwalk
      obtain ⟨c, rfl⟩ := walk_single hside
      exact (ih m hlt (Option.bind_eq_some_iff.mpr ⟨upper, hupper, hd⟩)).step

/-- The slot that the rules of `/` reach is the one at the end of the way. -/
theorem slot_iff {n : Nat} {a b : Noun} : Slot n a b ↔ a.slot? n = some b :=
  ⟨slot?_of_slot, slot_of_slot?⟩

/-- One unfolding of `#`: the noun in the slot is paired with what stands beside the slot. -/
theorem edit?_step {n : Nat} (hn : n ≠ 0) (bit : Bool) (a b : Noun) :
    a.edit? (2 * n + bit.toNat) b =
      (a.slot? (2 * n + (!bit).toNat)).bind fun c => a.edit? n (join b c (Side.ofBit bit)) := by
  have hother : (Side.ofBit bit).other = Side.ofBit (!bit) := by cases bit <;> rfl
  unfold edit? slot?
  rw [Axis.path_step hn, Axis.path_step hn]
  cases Axis.path n with
  | none => rfl
  | some way => simp [replace_concat, hother]

/-- The noun that the rules of `#` reach is the one replaced along the way. -/
theorem edit_iff {n : Nat} {a b c : Noun} : Edit n b a c ↔ a.edit? n b = some c := by
  constructor
  · intro h
    induction h with
    | whole => exact edit?_one _ _
    | head hs he ih =>
      exact (edit?_step (Nat.ne_of_gt he.axis_pos) false _ _).trans
        (Option.bind_eq_some_iff.mpr ⟨_, slot_iff.mp hs, ih⟩)
    | tail hs he ih =>
      exact (edit?_step (Nat.ne_of_gt he.axis_pos) true _ _).trans
        (Option.bind_eq_some_iff.mpr ⟨_, slot_iff.mp hs, ih⟩)
  · intro h
    induction n using Nat.strongRecOn generalizing b with
    | _ n ih =>
      rcases axis_cases n with rfl | rfl | ⟨m, bit, hm, hlt, rfl⟩
      · cases h
      · rw [edit?_one] at h
        cases h
        exact .whole
      · rw [edit?_step hm] at h
        obtain ⟨d, hd, he⟩ := Option.bind_eq_some_iff.mp h
        cases bit with
        | false => exact .head (slot_iff.mpr hd) (ih m hlt he)
        | true => exact .tail (slot_iff.mpr hd) (ih m hlt he)

end Noun
end NockDispatch
