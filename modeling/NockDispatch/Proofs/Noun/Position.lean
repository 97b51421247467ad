import Mathlib.Algebra.GroupWithZero.Nat
import NockDispatch.Proofs.Noun.Way

/-!
# How two slots lie

The digits of an axis are its way down, so one slot lies inside another exactly when the axis
of the outer one is the beginning of the axis of the inner one. Two slots of which neither
lies inside the other have no part in common, and a replacement in one of them leaves the
other as it was.
-/

namespace NockDispatch

def Side.bit : Side → Bool
  | .head => false
  | .tail => true

@[simp] theorem Side.bit_ofBit (bit : Bool) : (Side.ofBit bit).bit = bit := by
  cases bit <;> rfl

namespace Axis

/-- The slot at `upper` holds the slot at `lower`, or is that slot: the digits of `lower` begin
with those of `upper`. -/
def Above (upper lower : Nat) : Prop :=
  upper ≠ 0 ∧ ∃ depth, lower >>> depth = upper

theorem above_iff {upper lower : Nat} :
    Above upper lower ↔ upper ≠ 0 ∧ ∃ depth, depth ≤ lower ∧ lower >>> depth = upper := by
  constructor
  · rintro ⟨hn, depth, hd⟩
    refine ⟨hn, depth, Nat.le_of_not_lt fun hdepth => hn ?_, hd⟩
    have hlt : lower < 2 ^ depth := Nat.lt_trans hdepth Nat.lt_two_pow_self
    rw [← hd, Nat.shiftRight_eq_div_pow, Nat.div_eq_of_lt hlt]
  · rintro ⟨hn, depth, -, hd⟩
    exact ⟨hn, depth, hd⟩

instance (upper lower : Nat) : Decidable (Above upper lower) :=
  decidable_of_iff _ above_iff.symm

/-- The axis of slot `inner` of the noun in slot `outer`: the digits of `outer` and then those
of `inner` after its leading one. -/
def join (outer inner : Nat) : Nat :=
  outer * 2 ^ inner.log2 + inner % 2 ^ inner.log2

theorem join_one (outer : Nat) : join outer 1 = outer := by
  have hlog : Nat.log2 1 = 0 := rfl
  rw [join, hlog]
  omega

theorem join_step (outer : Nat) {n : Nat} (hn : n ≠ 0) (bit : Bool) :
    join outer (2 * n + bit.toNat) = 2 * join outer n + bit.toNat := by
  have hb := bit.toNat_le
  have hhalf : (2 * n + bit.toNat) / 2 = n := by omega
  have hlog : (2 * n + bit.toNat).log2 = n.log2 + 1 := by
    rw [Nat.log2_def, if_pos (by omega), hhalf]
  have hmod : (2 * n + bit.toNat) % 2 ^ (n.log2 + 1) =
      2 * (n % 2 ^ n.log2) + bit.toNat := by
    have hlow : (2 * n + bit.toNat) % 2 = bit.toNat := by omega
    rw [Nat.pow_succ', Nat.mod_mul, hhalf, hlow]
    omega
  rw [join, join, hlog, hmod, Nat.pow_succ', Nat.mul_left_comm]
  omega

theorem join_ne_zero {outer : Nat} (hn : outer ≠ 0) (inner : Nat) : join outer inner ≠ 0 := by
  have hpos : 0 < outer * 2 ^ inner.log2 := Nat.mul_pos (by omega) (Nat.two_pow_pos _)
  unfold join
  omega

theorem path_length {axis : Nat} {way : List Side} (h : path axis = some way) :
    way.length = axis.log2 := by
  unfold path at h
  split at h
  · cases h
  · cases h
    simp

theorem path_of_ne_zero {axis : Nat} (hn : axis ≠ 0) : ∃ way, path axis = some way := by
  cases h : path axis with
  | none => exact absurd (path_eq_none_iff.mp h) hn
  | some way => exact ⟨way, rfl⟩

theorem path_join {outer inner : Nat} {upper lower : List Side} (ho : path outer = some upper)
    (hi : path inner = some lower) : path (join outer inner) = some (upper ++ lower) := by
  have hn : outer ≠ 0 := fun hzero => by
    rw [path_eq_none_iff.mpr hzero] at ho
    cases ho
  induction inner using Nat.strongRecOn generalizing lower with
  | _ inner ih =>
    rcases Noun.axis_cases inner with rfl | rfl | ⟨m, bit, hm, hlt, rfl⟩
    · cases hi
    · rw [path_one] at hi
      cases hi
      rw [join_one, ho, List.append_nil]
    · rw [path_step hm] at hi
      obtain ⟨way, hway, rfl⟩ := Option.map_eq_some_iff.mp hi
      rw [join_step outer hm, path_step (join_ne_zero hn m), ih m hlt hway]
      simp

def ofWay (way : List Side) : Nat := way.foldl (fun n side => 2 * n + side.bit.toNat) 1

theorem ofWay_path {axis : Nat} {way : List Side} (h : path axis = some way) :
    ofWay way = axis := by
  induction axis using Nat.strongRecOn generalizing way with
  | _ axis ih =>
    rcases Noun.axis_cases axis with rfl | rfl | ⟨m, bit, hm, hlt, rfl⟩
    · cases h
    · rw [path_one] at h
      cases h
      rfl
    · rw [path_step hm] at h
      obtain ⟨upper, hupper, rfl⟩ := Option.map_eq_some_iff.mp h
      rw [ofWay, List.foldl_append, ← ofWay, ih m hlt hupper]
      simp

theorem foldl_shiftRight (n : Nat) (way : List Side) :
    way.foldl (fun n side => 2 * n + side.bit.toNat) n >>> way.length = n := by
  induction way generalizing n with
  | nil => rfl
  | cons side way ih =>
    have hb := side.bit.toNat_le
    rw [List.foldl_cons, List.length_cons, Nat.shiftRight_succ, ih]
    omega

/-- A way that begins with the way to `upper` leads inside the slot at `upper`. -/
theorem above_of_prefix {upper lower : Nat} {way rest : List Side} (hu : path upper = some way)
    (hl : path lower = some (way ++ rest)) : Above upper lower := by
  refine ⟨fun hzero => ?_, rest.length, ?_⟩
  · rw [path_eq_none_iff.mpr hzero] at hu
    cases hu
  · rw [← ofWay_path hl, ← ofWay_path hu, ofWay, List.foldl_append]
    exact foldl_shiftRight _ rest

end Axis

namespace Noun

theorem walk_join_cons (a b : Noun) (side : Side) (way : List Side) :
    (join a b side).walk (side :: way) = a.walk way := by
  cases side <;> simp [join, walk]

theorem walk_join_other {side other : Side} (hside : side ≠ other) (a a' b : Noun)
    (way : List Side) :
    (join a b side).walk (other :: way) = (join a' b side).walk (other :: way) := by
  cases side <;> cases other <;> simp_all [join, walk]

theorem replace_join_cons (b a c : Noun) (side : Side) (way : List Side) :
    replace b (join a c side) (side :: way) = (replace b a way).map (join · c side) := by
  cases side <;> simp [join, replace]

theorem eq_join_of_walk_cons {a b : Noun} {side : Side} {way : List Side}
    (hw : a.walk (side :: way) = some b) :
    ∃ c d, a = join c d side ∧ c.walk way = some b := by
  rw [← List.singleton_append, walk_append] at hw
  obtain ⟨c, hc, hb⟩ := Option.bind_eq_some_iff.mp hw
  obtain ⟨d, rfl⟩ := walk_single hc
  exact ⟨c, d, rfl, hb⟩

theorem eq_join_of_replace_cons {a b c : Noun} {side : Side} {way : List Side}
    (hr : replace b a (side :: way) = some c) :
    ∃ d d' e, a = join d e side ∧ c = join d' e side ∧ replace b d way = some d' := by
  have hsome := replace_isSome b a (side :: way)
  rw [hr, Option.isSome_some, eq_comm, Option.isSome_iff_exists] at hsome
  obtain ⟨_, hw⟩ := hsome
  obtain ⟨d, e, rfl, -⟩ := eq_join_of_walk_cons hw
  rw [replace_join_cons] at hr
  obtain ⟨d', hd, rfl⟩ := Option.map_eq_some_iff.mp hr
  exact ⟨d, d', e, rfl, rfl, hd⟩

theorem walk_replace_below {a b c : Noun} {way : List Side} (hr : replace b a way = some c)
    (lower : List Side) : c.walk (way ++ lower) = b.walk lower := by
  induction way generalizing a c with
  | nil =>
    rw [replace] at hr
    cases hr
    rw [List.nil_append]
  | cons side way ih =>
    obtain ⟨d, d', e, rfl, rfl, hd⟩ := eq_join_of_replace_cons hr
    rw [List.cons_append, walk_join_cons, ih hd]

/-- Where two ways part, a replacement at the end of one is not seen at the end of the other. -/
theorem walk_replace_apart {a b c : Noun} {way other : List Side}
    (hr : replace b a way = some c) (hw : ¬ way <+: other) (ho : ¬ other <+: way) :
    c.walk other = a.walk other := by
  induction way generalizing a c other with
  | nil => exact absurd List.nil_prefix hw
  | cons side way ih =>
    obtain ⟨d, d', e, rfl, rfl, hd⟩ := eq_join_of_replace_cons hr
    cases other with
    | nil => exact absurd List.nil_prefix ho
    | cons first other =>
      by_cases hside : side = first
      · subst hside
        rw [List.prefix_cons_inj] at hw ho
        rw [walk_join_cons, walk_join_cons, ih hd hw ho]
      · exact walk_join_other hside d' d e other

theorem replace_walk {a b : Noun} {way : List Side} (hw : a.walk way = some b) :
    replace b a way = some a := by
  induction way generalizing a with
  | nil =>
    rw [walk] at hw
    cases hw
    rw [replace]
  | cons side way ih =>
    obtain ⟨c, d, rfl, hc⟩ := eq_join_of_walk_cons hw
    rw [replace_join_cons, ih hc, Option.map_some]

variable {a b c : Noun} {axis : Nat}

theorem slot?_edit?_below (he : a.edit? axis b = some c) {inner : Nat} (hi : inner ≠ 0) :
    c.slot? (Axis.join axis inner) = b.slot? inner := by
  obtain ⟨way, hway, hr⟩ := Option.bind_eq_some_iff.mp he
  obtain ⟨lower, hlower⟩ := Axis.path_of_ne_zero hi
  rw [slot?, slot?, Axis.path_join hway hlower, hlower]
  exact walk_replace_below hr lower

theorem slot?_edit?_self (he : a.edit? axis b = some c) : c.slot? axis = some b := by
  have hbelow := slot?_edit?_below he Nat.one_ne_zero
  rwa [Axis.join_one, slot?_one] at hbelow

theorem slot?_edit?_apart (he : a.edit? axis b = some c) {other : Nat}
    (habove : ¬ Axis.Above axis other) (hbelow : ¬ Axis.Above other axis) :
    c.slot? other = a.slot? other := by
  obtain ⟨way, hway, hr⟩ := Option.bind_eq_some_iff.mp he
  unfold slot?
  cases hother : Axis.path other with
  | none => rfl
  | some way' =>
    refine walk_replace_apart hr ?_ ?_
    · rintro ⟨rest, rfl⟩
      exact habove (Axis.above_of_prefix hway hother)
    · rintro ⟨rest, rfl⟩
      exact hbelow (Axis.above_of_prefix hother hway)

theorem edit?_slot? (hs : a.slot? axis = some b) : a.edit? axis b = some a := by
  obtain ⟨way, hway, hw⟩ := Option.bind_eq_some_iff.mp hs
  rw [edit?, hway]
  exact replace_walk hw

end Noun
end NockDispatch
