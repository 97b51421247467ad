import NockDispatch.Proofs.Graph.Composition

/-!
# Axes in words, joined

`Axis.peg` joins two axes by shifting and masking, and refuses when the digits do not fit in a
word. What it gives is the axis of a slot inside a slot, and it refuses for no other reason than
that there is no such axis in a word. So it is associative also where the parts do not fit, and to
read or replace the slot at a joined axis is to read or replace a slot of the noun in a slot.
-/

namespace NockDispatch

namespace Axis

theorem log2_join {outer inner : Nat} (ho : outer ≠ 0) (hi : inner ≠ 0) :
    (join outer inner).log2 = outer.log2 + inner.log2 := by
  obtain ⟨upper, lower, hupper, hlower, hjoin⟩ := exists_path_join ho hi
  rw [← path_length hjoin, List.length_append, path_length hupper, path_length hlower]

theorem xor_leading {n : Nat} (hn : n ≠ 0) : n ^^^ 2 ^ n.log2 = n % 2 ^ n.log2 := by
  apply Nat.eq_of_testBit_eq
  intro i
  rw [Nat.testBit_xor, Nat.testBit_two_pow, Nat.testBit_mod_two_pow]
  rcases Nat.lt_trichotomy i n.log2 with hlt | rfl | hgt
  · simp [hlt, Nat.ne_of_gt hlt]
  · simp [Nat.testBit_log2 hn]
  · have hhigh : n.testBit i = false :=
      Nat.testBit_lt_two_pow (Nat.lt_of_lt_of_le Nat.lt_log2_self
        (Nat.pow_le_pow_right Nat.two_pos hgt))
    simp [hhigh, Nat.ne_of_lt hgt]

variable {outer inner : UInt64}

theorem toNat_ne_zero {axis : UInt64} (hn : axis ≠ 0) : axis.toNat ≠ 0 :=
  fun hzero => hn (UInt64.toNat_inj.mp hzero)

theorem log2_toNat_lt (axis : UInt64) : axis.toNat.log2 < 64 := by
  by_cases hn : axis.toNat = 0
  · rw [hn]
    decide
  · exact (Nat.log2_lt hn).mpr axis.toNat_lt

/-- The joined axis does not fit in a word just when its digits are too many. -/
theorem peg_overflow_iff (ho : outer ≠ 0) (hi : inner ≠ 0) :
    63 - outer.log2 < inner.log2 ↔ UInt64.size ≤ join outer.toNat inner.toNat := by
  have hon := toNat_ne_zero ho
  have hin := toNat_ne_zero hi
  have hlog : outer.log2.toNat = outer.toNat.log2 := rfl
  have hlog' : inner.log2.toNat = inner.toNat.log2 := rfl
  have hbound := log2_toNat_lt outer
  have hle : outer.log2 ≤ 63 := by
    rw [UInt64.le_iff_toNat_le, hlog]
    exact Nat.le_of_lt_succ hbound
  have hsize : UInt64.size = 2 ^ 64 := rfl
  have hthree : (63 : UInt64).toNat = 63 := rfl
  rw [UInt64.lt_iff_toNat_lt, UInt64.toNat_sub_of_le _ _ hle, hlog, hlog', hthree, hsize,
    ← Nat.le_log2 (join_ne_zero hon _), log2_join hon hin]
  omega

theorem toNat_shift_digits (axis : UInt64) {digits : UInt64} (hd : digits.toNat < 64)
    (hfits : axis.toNat * 2 ^ digits.toNat < UInt64.size) :
    (axis <<< digits).toNat = axis.toNat * 2 ^ digits.toNat := by
  rw [UInt64.toNat_shiftLeft, Nat.mod_eq_of_lt hd, Nat.shiftLeft_eq]
  exact Nat.mod_eq_of_lt hfits

/-- Shifted and masked, two words give the digits of the one and then those of the other after its
leading one. -/
theorem toNat_peg (hi : inner ≠ 0) (hfits : join outer.toNat inner.toNat < UInt64.size) :
    ((outer <<< inner.log2) ||| (inner ^^^ ((1 : UInt64) <<< inner.log2))).toNat =
      join outer.toNat inner.toNat := by
  have hin := toNat_ne_zero hi
  have hlog : inner.log2.toNat = inner.toNat.log2 := rfl
  have hbound : inner.log2.toNat < 64 := log2_toNat_lt inner
  have hone : ((1 : UInt64) <<< inner.log2).toNat = 2 ^ inner.toNat.log2 := by
    rw [toNat_shift_digits 1 hbound, hlog]
    · exact Nat.one_mul _
    · rw [hlog]
      exact Nat.lt_of_le_of_lt (Nat.le_of_eq (Nat.one_mul _))
        (Nat.lt_of_le_of_lt (Nat.log2_self_le hin) inner.toNat_lt)
  have hhigh : (outer <<< inner.log2).toNat = outer.toNat <<< inner.toNat.log2 := by
    rw [toNat_shift_digits outer hbound, hlog, Nat.shiftLeft_eq]
    exact Nat.lt_of_le_of_lt (Nat.le_add_right _ _) hfits
  rw [UInt64.toNat_or, UInt64.toNat_xor, hone, hhigh, xor_leading hin,
    ← Nat.shiftLeft_add_eq_or_of_lt (Nat.mod_lt _ (Nat.two_pow_pos _)), Nat.shiftLeft_eq, join]

theorem peg_eq_some_iff {axis : UInt64} :
    peg outer inner = some axis ↔
      outer ≠ 0 ∧ inner ≠ 0 ∧ axis.toNat = join outer.toNat inner.toNat := by
  unfold peg
  split
  · next hzero =>
    constructor
    · rintro ⟨⟩
    · rintro ⟨ho, hi, -⟩
      rcases hzero with rfl | rfl
      · exact absurd rfl ho
      · exact absurd rfl hi
  · next hzero =>
    obtain ⟨ho, hi⟩ := not_or.mp hzero
    dsimp only
    split
    · next hlong =>
      have hsize := (peg_overflow_iff ho hi).mp hlong
      constructor
      · rintro ⟨⟩
      · rintro ⟨-, -, haxis⟩
        exact absurd axis.toNat_lt (Nat.not_lt.mpr (haxis ▸ hsize))
    · next hshort =>
      rw [peg_overflow_iff ho hi, Nat.not_le] at hshort
      rw [Option.some.injEq, ← UInt64.toNat_inj, toNat_peg hi hshort, eq_comm]
      exact ⟨fun haxis => ⟨ho, hi, haxis⟩, fun haxis => haxis.2.2⟩

theorem peg_eq_none_iff :
    peg outer inner = none ↔
      outer = 0 ∨ inner = 0 ∨ UInt64.size ≤ join outer.toNat inner.toNat := by
  rw [Option.eq_none_iff_forall_ne_some]
  simp only [ne_eq, peg_eq_some_iff]
  constructor
  · intro hnone
    by_cases ho : outer = 0
    · exact .inl ho
    by_cases hi : inner = 0
    · exact .inr (.inl hi)
    refine .inr (.inr (Nat.not_lt.mp fun hfits => ?_))
    exact hnone (.ofNatLT _ hfits) ⟨ho, hi, UInt64.toNat_ofNatLT⟩
  · rintro (rfl | rfl | hsize) axis ⟨ho, hi, haxis⟩
    · exact ho rfl
    · exact hi rfl
    · exact absurd axis.toNat_lt (Nat.not_lt.mpr (haxis ▸ hsize))

theorem peg_one_left {axis : UInt64} (hn : axis ≠ 0) : peg 1 axis = some axis :=
  peg_eq_some_iff.mpr ⟨by decide, hn, (one_join (toNat_ne_zero hn)).symm⟩

theorem peg_one_right {axis : UInt64} (hn : axis ≠ 0) : peg axis 1 = some axis :=
  peg_eq_some_iff.mpr ⟨hn, by decide, (join_one axis.toNat).symm⟩

theorem exists_toNat_eq {n : Nat} {axis : UInt64} (hle : n ≤ axis.toNat) :
    ∃ part : UInt64, part.toNat = n :=
  ⟨.ofNatLT n (Nat.lt_of_le_of_lt hle axis.toNat_lt), UInt64.toNat_ofNatLT⟩

theorem peg_bind_left_iff {a b c axis : UInt64} :
    (peg a b).bind (peg · c) = some axis ↔
      a ≠ 0 ∧ b ≠ 0 ∧ c ≠ 0 ∧ axis.toNat = join (join a.toNat b.toNat) c.toNat := by
  rw [Option.bind_eq_some_iff]
  constructor
  · rintro ⟨part, hpart, haxis⟩
    obtain ⟨ha, hb, hpart⟩ := peg_eq_some_iff.mp hpart
    obtain ⟨-, hc, haxis⟩ := peg_eq_some_iff.mp haxis
    exact ⟨ha, hb, hc, hpart ▸ haxis⟩
  · rintro ⟨ha, hb, hc, haxis⟩
    obtain ⟨part, hpart⟩ := exists_toNat_eq (haxis ▸ le_join_left _ c.toNat)
    have hn : part ≠ 0 := by
      rintro rfl
      exact join_ne_zero (toNat_ne_zero ha) _ hpart.symm
    exact ⟨part, peg_eq_some_iff.mpr ⟨ha, hb, hpart⟩,
      peg_eq_some_iff.mpr ⟨hn, hc, hpart ▸ haxis⟩⟩

theorem peg_bind_right_iff {a b c axis : UInt64} :
    (peg b c).bind (peg a ·) = some axis ↔
      a ≠ 0 ∧ b ≠ 0 ∧ c ≠ 0 ∧ axis.toNat = join a.toNat (join b.toNat c.toNat) := by
  rw [Option.bind_eq_some_iff]
  constructor
  · rintro ⟨part, hpart, haxis⟩
    obtain ⟨hb, hc, hpart⟩ := peg_eq_some_iff.mp hpart
    obtain ⟨ha, -, haxis⟩ := peg_eq_some_iff.mp haxis
    exact ⟨ha, hb, hc, hpart ▸ haxis⟩
  · rintro ⟨ha, hb, hc, haxis⟩
    have hinner := join_ne_zero (toNat_ne_zero hb) c.toNat
    obtain ⟨part, hpart⟩ := exists_toNat_eq (haxis ▸ le_join_right (toNat_ne_zero ha) hinner)
    have hn : part ≠ 0 := by
      rintro rfl
      exact hinner hpart.symm
    exact ⟨part, peg_eq_some_iff.mpr ⟨hb, hc, hpart⟩,
      peg_eq_some_iff.mpr ⟨ha, hn, hpart ▸ haxis⟩⟩

theorem peg_assoc (a b c : UInt64) : (peg a b).bind (peg · c) = (peg b c).bind (peg a ·) := by
  apply Option.ext
  intro axis
  rw [peg_bind_left_iff, peg_bind_right_iff]
  by_cases hb : b = 0
  · simp [hb]
  · rw [join_assoc _ (toNat_ne_zero hb)]

end Axis

/-- Replace a slot of the noun in a slot, and put in the copy. -/
def EditM.within (root : NodeId) (outer inner : UInt64) (value : NodeId) : EditM NodeId := do
  let slot ← fun g => (g.wordSlot? root outer, g)
  let copy ← fun g => g.wordEdit slot inner value
  fun g => g.wordEdit root outer copy

namespace Graph

variable {g : Graph} {root value : NodeId}

theorem put_replace (wf : g.WellFormed) {a b c : Noun} (ha : g.Denotes root a) {way : List Side}
    (hr : Noun.replace b a way = some c) : (g.put b).2.put c = g.put c := by
  obtain ⟨hgrow, hb⟩ := grows_put wf b
  induction way generalizing root a c with
  | nil =>
    rw [Noun.replace] at hr
    cases hr
    rw [put_of_denotes hgrow.wellFormed hb]
  | cons side way ih =>
    cases a with
    | atom n => simp [Noun.replace] at hr
    | cell a₁ a₂ =>
      obtain ⟨head, tail, -, h₁, h₂⟩ := ha.exists_cell
      cases side with
      | head =>
        rw [Noun.replace] at hr
        obtain ⟨d, hd, rfl⟩ := Option.map_eq_some_iff.mp hr
        rw [put_cell, put_cell, ih h₁ hd]
      | tail =>
        rw [Noun.replace] at hr
        obtain ⟨d, hd, rfl⟩ := Option.map_eq_some_iff.mp hr
        rw [put_cell, put_cell, put_of_denotes wf h₁,
          put_of_denotes hgrow.wellFormed (h₁.extend hgrow.extend), ih h₂ hd]

theorem put_edit? (wf : g.WellFormed) {a b c : Noun} (ha : g.Denotes root a) {axis : Nat}
    (he : a.edit? axis b = some c) : (g.put b).2.put c = g.put c := by
  obtain ⟨way, -, hr⟩ := Option.bind_eq_some_iff.mp he
  exact put_replace wf ha hr

/-- An edit at a joined axis stores the cells of the inner way and then those of the outer one, and
so it leaves the graph that the two edits leave. -/
theorem edit_join (wf : g.WellFormed) (hroot : g.Stored root) (hvalue : g.Stored value)
    {outer inner axis : UInt64} (hpeg : Axis.peg outer inner = some axis) :
    g.wordEdit root axis value = EditM.within root outer inner value g := by
  obtain ⟨ho, hi, haxis⟩ := Axis.peg_eq_some_iff.mp hpeg
  obtain ⟨a, ha⟩ := exists_denotes wf hroot
  obtain ⟨b, hb⟩ := exists_denotes wf hvalue
  simp only [EditM.within, EditM.bind_eq, wordSlot?_eq, wordEdit_eq]
  rw [ha.edit wf hb, haxis,
    Noun.edit?_join a b (Axis.toNat_ne_zero ho) (Axis.toNat_ne_zero hi)]
  cases hslot : a.slot? outer.toNat with
  | none =>
    rw [ha.slot?_none hslot]
    rfl
  | some c =>
    obtain ⟨slot, hid, hc⟩ := ha.slot?_some hslot
    rw [hid, Option.bind_some]
    dsimp only
    rw [hc.edit wf hb]
    cases hinner : c.edit? inner.toNat b with
    | none => rfl
    | some d =>
      obtain ⟨hgrow, hd⟩ := grows_put wf d
      simp only [Option.bind_some, putEdit]
      rw [(ha.extend hgrow.extend).edit hgrow.wellFormed hd]
      cases he : a.edit? outer.toNat d with
      | none =>
        have hsome := Noun.edit?_isSome a outer.toNat d
        simp [he, hslot] at hsome
      | some e =>
        simp only [putEdit]
        rw [put_edit? wf ha he]

/-- Joined axes are axes of slots in slots: to read or to edit at one is to do so in the slot of
the outer axis. There is none just when an axis is zero or the digits do not fit in a word. The
axis of the whole is a unit on both sides, and it does not matter how three axes are joined. -/
theorem peg_composes :
    (∀ a b : UInt64, Axis.peg a b = none ↔
      a = 0 ∨ b = 0 ∨ UInt64.size ≤ Axis.join a.toNat b.toNat) ∧
    (∀ a b c : UInt64, Axis.peg a b = some c →
      c.toNat = Axis.join a.toNat b.toNat ∧
      ∀ g : Graph, g.WellFormed → ∀ root, g.Stored root →
        g.wordSlot? root c = (g.wordSlot? root a).bind (g.wordSlot? · b) ∧
        ∀ value, g.Stored value → g.wordEdit root c value = EditM.within root a b value g) ∧
    (∀ a : UInt64, a ≠ 0 → Axis.peg 1 a = some a ∧ Axis.peg a 1 = some a) ∧
    ∀ a b c : UInt64,
      (Axis.peg a b).bind (Axis.peg · c) = (Axis.peg b c).bind (Axis.peg a ·) := by
  refine ⟨fun _ _ => Axis.peg_eq_none_iff, ?_, ?_, Axis.peg_assoc⟩
  · intro a b c hpeg
    obtain ⟨ha, hb, hc⟩ := Axis.peg_eq_some_iff.mp hpeg
    refine ⟨hc, fun g wf root hroot => ⟨?_, fun value hvalue => edit_join wf hroot hvalue hpeg⟩⟩
    simp only [wordSlot?_eq, hc]
    exact g.slot?_join root (Axis.toNat_ne_zero ha) (Axis.toNat_ne_zero hb)
  · exact fun a ha => ⟨Axis.peg_one_left ha, Axis.peg_one_right ha⟩

/-- The sample of a gate's context is at axis 30. Here the context is `[8 5 6]`, and the gate as a
whole is put in the place of the 5. -/
theorem peg_composes_gate :
    let noun := Noun.cell (.atom 1) (.cell (.atom 2) (.cell (.atom 8) (.cell (.atom 5) (.atom 6))))
    let stored := (empty ⟨0⟩).put noun
    let g := stored.2
    let root := stored.1
    Axis.peg Axis.context Axis.sample = some 30 ∧ (30 : UInt64) ≠ 0 ∧ Axis.peg 1 30 = some 30 ∧
    g.WellFormed ∧ g.Stored root ∧
    (∃ id, (g.wordSlot? root Axis.context).bind (g.wordSlot? · Axis.sample) = some id ∧
      g.Denotes id (.atom 5)) ∧
    (EditM.within root Axis.context Axis.sample root g).1.isSome ∧
    g.wordEdit root 30 root = EditM.within root Axis.context Axis.sample root g := by
  intro noun stored g root
  obtain ⟨hgrow, hd⟩ := grows_put (wellFormed_empty ⟨0⟩) noun
  obtain ⟨-, hcompose, hone, -⟩ := peg_composes
  have hpeg : Axis.peg Axis.context Axis.sample = some 30 := by decide
  have hne : (30 : UInt64) ≠ 0 := by decide
  have hslot : noun.slot? (30 : UInt64).toNat = some (.atom 5) := rfl
  obtain ⟨id, hid, hfive⟩ := hd.wordSlot?_some hslot
  obtain ⟨-, hread⟩ := hcompose _ _ _ hpeg
  obtain ⟨hlookup, hedit⟩ := hread g hgrow.wellFormed root hd.stored
  have hsome : (g.wordEdit root 30 root).1.isSome := by
    have hedited := (makes_edit hd hd (30 : UInt64).toNat).isSome_eq hgrow.wellFormed
    rw [Noun.edit?_isSome, hslot] at hedited
    rw [wordEdit_eq]
    exact hedited
  rw [hlookup] at hid
  rw [hedit root hd.stored] at hsome
  exact ⟨hpeg, hne, (hone 30 hne).1, hgrow.wellFormed, hd.stored, ⟨id, hid, hfive⟩, hsome,
    hedit root hd.stored⟩

end Graph
end NockDispatch
