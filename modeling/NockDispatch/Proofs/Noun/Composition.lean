import NockDispatch.Proofs.Noun.Position

/-!
# Replacements one after another

Axes compose as ways do: the axis of a slot inside a slot is associative, with the axis of the
whole noun on either side as its unit. Replacements along two ways are made in either order where
the ways part. Where one way goes on from the other, a replacement at its end is undone by one
higher up, and one made inside what was just put in could have been made before.
-/

namespace NockDispatch

namespace Axis

theorem join_zero (outer : Nat) : join outer 0 = outer := by
  have hlog : Nat.log2 0 = 0 := rfl
  rw [join, hlog]
  omega

theorem one_join {inner : Nat} (hn : inner ≠ 0) : join 1 inner = inner := by
  induction inner using Nat.strongRecOn with
  | _ inner ih =>
    rcases Noun.axis_cases inner with rfl | rfl | ⟨m, bit, hm, hlt, rfl⟩
    · exact absurd rfl hn
    · exact join_one 1
    · rw [join_step 1 hm, ih m hlt hm]

theorem join_assoc (a : Nat) {b : Nat} (hb : b ≠ 0) (c : Nat) :
    join (join a b) c = join a (join b c) := by
  induction c using Nat.strongRecOn with
  | _ c ih =>
    rcases Noun.axis_cases c with rfl | rfl | ⟨m, bit, hm, hlt, rfl⟩
    · rw [join_zero, join_zero]
    · rw [join_one, join_one]
    · rw [join_step _ hm, join_step b hm, join_step a (join_ne_zero hb m), ih m hlt]

theorem le_join_left (outer inner : Nat) : outer ≤ join outer inner :=
  Nat.le_trans (Nat.le_mul_of_pos_right outer (Nat.two_pow_pos _)) (Nat.le_add_right _ _)

theorem le_join_right {outer inner : Nat} (ho : outer ≠ 0) (hi : inner ≠ 0) :
    inner ≤ join outer inner := by
  have hone := Nat.mul_le_mul_right (2 ^ inner.log2) (Nat.one_le_iff_ne_zero.mpr ho)
  calc inner = join 1 inner := (one_join hi).symm
    _ ≤ join outer inner := Nat.add_le_add_right hone _

theorem exists_path_join {outer inner : Nat} (ho : outer ≠ 0) (hi : inner ≠ 0) :
    ∃ upper lower, path outer = some upper ∧ path inner = some lower ∧
      path (join outer inner) = some (upper ++ lower) := by
  obtain ⟨upper, hupper⟩ := path_of_ne_zero ho
  obtain ⟨lower, hlower⟩ := path_of_ne_zero hi
  exact ⟨upper, lower, hupper, hlower, path_join hupper hlower⟩

theorem Above.exists_join {upper lower : Nat} (h : Above upper lower) :
    ∃ inner, inner ≠ 0 ∧ lower = join upper inner := by
  obtain ⟨hn, depth, hd⟩ := h
  induction depth generalizing lower with
  | zero => exact ⟨1, Nat.one_ne_zero, by rw [join_one, ← hd, Nat.shiftRight_zero]⟩
  | succ depth ih =>
    rcases Noun.axis_cases lower with rfl | rfl | ⟨m, bit, hm, -, rfl⟩
    · exact absurd hd.symm (by simpa using hn)
    · exact absurd hd.symm (by simpa [Nat.shiftRight_succ_inside] using hn)
    · have hb := bit.toNat_le
      have hhalf : (2 * m + bit.toNat) / 2 = m := by omega
      rw [Nat.shiftRight_succ_inside, hhalf] at hd
      obtain ⟨inner, hi, rfl⟩ := ih hd
      exact ⟨2 * inner + bit.toNat, by omega, (join_step upper hi bit).symm⟩

end Axis

namespace Noun

/-! ## Along ways -/

theorem replace_append (b a : Noun) (upper lower : List Side) :
    replace b a (upper ++ lower) =
      (a.walk upper).bind fun c => (replace b c lower).bind fun d => replace d a upper := by
  induction upper generalizing a with
  | nil => simp [walk, replace]
  | cons side upper ih =>
    cases a with
    | atom n => cases side <;> rfl
    | cell h t =>
      cases side <;>
        simp only [List.cons_append, walk, replace, ih, Option.map_bind, Function.comp_def]

/-- Of two replacements at one place the later one stays. -/
theorem replace_replace {a b c d : Noun} {way : List Side} (hr : replace b a way = some c) :
    replace d c way = replace d a way := by
  induction way generalizing a c with
  | nil => rw [replace, replace]
  | cons side way ih =>
    obtain ⟨e, e', f, rfl, rfl, he⟩ := eq_join_of_replace_cons hr
    rw [replace_join_cons, replace_join_cons, ih he]

theorem replace_above {a b c d : Noun} {upper lower : List Side}
    (hr : replace b a (upper ++ lower) = some c) : replace d c upper = replace d a upper := by
  rw [replace_append] at hr
  obtain ⟨_, -, hr⟩ := Option.bind_eq_some_iff.mp hr
  obtain ⟨_, -, hr⟩ := Option.bind_eq_some_iff.mp hr
  exact replace_replace hr

theorem replace_below (a b c : Noun) (upper lower : List Side) :
    (replace b a upper).bind (replace c · (upper ++ lower)) =
      (replace c b lower).bind (replace · a upper) := by
  cases hr : replace b a upper with
  | none =>
    have hnone : ∀ d, replace d a upper = none := by
      intro d
      rw [← Option.not_isSome_iff_eq_none, replace_isSome, ← replace_isSome b, hr]
      simp
    simp [hnone]
  | some d =>
    have hwalk := walk_replace_below hr []
    rw [List.append_nil, walk] at hwalk
    rw [Option.bind_some, replace_append, hwalk, Option.bind_some]
    exact congrArg _ (funext fun e => replace_replace hr)

theorem exists_join (a b : Noun) (side : Side) : ∃ c d, cell a b = join c d side := by
  cases side with
  | head => exact ⟨a, b, rfl⟩
  | tail => exact ⟨b, a, rfl⟩

theorem replace_join_other {side other : Side} (hside : side ≠ other) (b a c : Noun)
    (way : List Side) :
    replace b (join a c side) (other :: way) = (replace b c way).map (join a · side) := by
  cases side <;> cases other <;> simp_all [join, replace]

/-- Where two ways part, replacements at their ends can be made in either order. -/
theorem replace_comm {way other : List Side} (hw : ¬ way <+: other) (ho : ¬ other <+: way)
    (a b c : Noun) :
    (replace b a way).bind (replace c · other) = (replace c a other).bind (replace b · way) := by
  induction way generalizing a other with
  | nil => exact absurd List.nil_prefix hw
  | cons side way ih =>
    cases other with
    | nil => exact absurd List.nil_prefix ho
    | cons first other =>
      cases a with
      | atom n => simp [replace]
      | cell a₁ a₂ =>
        obtain ⟨d, e, ha⟩ := exists_join a₁ a₂ side
        rw [ha]
        by_cases hside : side = first
        · subst hside
          rw [List.prefix_cons_inj] at hw ho
          have hinner := congrArg (Option.map (join · e side)) (ih hw ho d)
          simpa only [replace_join_cons, Option.bind_map, Option.map_bind, Function.comp_def]
            using hinner
        · simp only [replace_join_cons, replace_join_other hside, Option.bind_map,
            Function.comp_def]
          cases replace b d way <;> cases replace c e other <;> rfl

/-! ## At axes -/

variable {m n : Nat}

/-- What is replaced at an axis that is joined is replaced in the slot of the outer one, and the
outcome is put back. -/
theorem edit?_join (a b : Noun) (hm : m ≠ 0) (hn : n ≠ 0) :
    a.edit? (Axis.join m n) b =
      (a.slot? m).bind fun c => (c.edit? n b).bind (a.edit? m ·) := by
  obtain ⟨upper, lower, hupper, hlower, hjoin⟩ := Axis.exists_path_join hm hn
  simp only [edit?, slot?, hupper, hlower, hjoin, Option.bind_some]
  exact replace_append b a upper lower

theorem edit?_below (a b c : Noun) (hm : m ≠ 0) (hn : n ≠ 0) :
    (a.edit? m b).bind (·.edit? (Axis.join m n) c) = (b.edit? n c).bind (a.edit? m ·) := by
  obtain ⟨upper, lower, hupper, hlower, hjoin⟩ := Axis.exists_path_join hm hn
  simp only [edit?, hupper, hlower, hjoin, Option.bind_some]
  exact replace_below a b c upper lower

/-- A replacement undoes all that was replaced further down. -/
theorem edit?_above {a : Noun} (hn : (a.slot? n).isSome) (hmn : Axis.Above m n) (b c : Noun) :
    (a.edit? n c).bind (·.edit? m b) = a.edit? m b := by
  obtain ⟨inner, hi, rfl⟩ := hmn.exists_join
  obtain ⟨upper, lower, hupper, -, hjoin⟩ := Axis.exists_path_join hmn.1 hi
  rw [← edit?_isSome a _ c] at hn
  obtain ⟨d, hd⟩ := Option.isSome_iff_exists.mp hn
  rw [hd, Option.bind_some]
  simp only [edit?, hjoin, hupper, Option.bind_some] at hd ⊢
  exact replace_above hd

theorem edit?_isSome_apart {a : Noun} (hm : (a.slot? m).isSome) (hn : (a.slot? n).isSome)
    (hmn : ¬ Axis.Above m n) (hnm : ¬ Axis.Above n m) (b c : Noun) :
    ((a.edit? m b).bind (·.edit? n c)).isSome := by
  rw [← edit?_isSome a m b] at hm
  obtain ⟨d, hd⟩ := Option.isSome_iff_exists.mp hm
  rw [hd, Option.bind_some, edit?_isSome, slot?_edit?_apart hd hmn hnm]
  exact hn

theorem edit?_comm (hmn : ¬ Axis.Above m n) (hnm : ¬ Axis.Above n m) (a b c : Noun) :
    (a.edit? m b).bind (·.edit? n c) = (a.edit? n c).bind (·.edit? m b) := by
  unfold edit?
  cases hm : Axis.path m with
  | none => simp
  | some way =>
    cases hn : Axis.path n with
    | none => simp
    | some other =>
      apply replace_comm
      · rintro ⟨rest, rfl⟩
        exact hmn (Axis.above_of_prefix hm hn)
      · rintro ⟨rest, rfl⟩
        exact hnm (Axis.above_of_prefix hn hm)

end Noun
end NockDispatch
