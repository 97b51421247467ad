import Mathlib.Data.List.DropRight
import Mathlib.Data.Nat.Digits.Lemmas
import NockDispatch.Memo
import NockDispatch.Proofs.Graph.Edit
import NockDispatch.Proofs.Text.Marks
import NockDispatch.Proofs.Text.Spelling

/-!
# Cords

A cord is the number that has the bytes of a text as its digits in base 256, the lowest first. So
the bytes without the zeros at their end make up the digits of the number, and two texts have one
cord just when they differ in nothing but such zeros, which are NUL characters at the end. As a word
the bytes are that number up to multiples of 2 ^ 64, and the number itself if nothing but zeros
stands behind the eighth byte.
-/

namespace NockDispatch

/-! ## Bytes as digits -/

/-- The number that has the bytes as its digits. -/
def digitsValue (bytes : List UInt8) : Nat := Nat.ofDigits 256 (bytes.map UInt8.toNat)

def trimZeros (bytes : List UInt8) : List UInt8 := bytes.rdropWhile (· == 0)

variable {bytes others : List UInt8}

theorem Graph.ofBytes_eq (bytes : List UInt8) : Graph.ofBytes bytes = digitsValue bytes := by
  induction bytes with
  | nil => rfl
  | cons byte rest ih =>
    rw [digitsValue, List.map_cons, Nat.ofDigits_cons, ← digitsValue, ← ih]
    rfl

theorem forall_digit_lt (bytes : List UInt8) : ∀ digit ∈ bytes.map UInt8.toNat, digit < 256 := by
  simpa using fun (byte : UInt8) _ => byte.toNat_lt

theorem trimZeros_concat_zero (bytes : List UInt8) : trimZeros (bytes ++ [0]) = trimZeros bytes :=
  List.rdropWhile_concat_pos _ _ _ rfl

theorem trimZeros_eq_self (hlast : ∀ byte ∈ bytes.getLast?, byte ≠ 0) :
    trimZeros bytes = bytes := by
  refine List.rdropWhile_eq_self_iff.mpr fun hne hzero => ?_
  exact hlast _ (List.getLast?_eq_some_getLast hne) (by simpa using hzero)

theorem digitsValue_trimZeros (bytes : List UInt8) :
    digitsValue (trimZeros bytes) = digitsValue bytes := by
  induction bytes using List.reverseRecOn with
  | nil => rfl
  | append_singleton rest byte ih =>
    by_cases hzero : byte = 0
    · have happend : digitsValue (rest ++ [0]) = digitsValue rest := by
        rw [digitsValue, List.map_append]
        exact Nat.ofDigits_append_zero _
      rw [hzero, trimZeros_concat_zero, ih, happend]
    · rw [trimZeros_eq_self (by simpa using hzero)]

/-- Without the zeros at their end, the bytes are all the digits of their number. -/
theorem digits_digitsValue (bytes : List UInt8) :
    Nat.digits 256 (digitsValue bytes) = (trimZeros bytes).map UInt8.toNat := by
  rw [← digitsValue_trimZeros, digitsValue]
  refine Nat.digits_ofDigits 256 (by decide) _ (forall_digit_lt _) fun hne hzero => ?_
  rw [List.getLast_map hne] at hzero
  have hlast := List.rdropWhile_last_not (· == 0) bytes (mt List.map_eq_nil_iff.mpr hne)
  exact hlast (beq_iff_eq.mpr (UInt8.toNat_inj.mp hzero))

theorem digitsValue_inj : digitsValue bytes = digitsValue others ↔
    trimZeros bytes = trimZeros others := by
  constructor
  · intro heq
    have hdigits := congrArg (Nat.digits 256) heq
    rw [digits_digitsValue, digits_digitsValue] at hdigits
    exact List.map_injective_iff.mpr (fun _ _ => UInt8.toNat_inj.mp) hdigits
  · intro heq
    rw [← digitsValue_trimZeros, heq, digitsValue_trimZeros]

theorem digitsValue_eq_zero_iff : digitsValue bytes = 0 ↔ ∀ byte ∈ bytes, byte = 0 := by
  have hnil : digitsValue [] = 0 := rfl
  rw [← hnil, digitsValue_inj]
  simp [trimZeros, List.rdropWhile_eq_nil_iff]

/-- The number fits in a word just when nothing but zeros stands behind the eighth byte. -/
theorem digitsValue_lt_size_iff :
    digitsValue bytes < UInt64.size ↔ ∀ byte ∈ bytes.drop 8, byte = 0 := by
  have hsize : UInt64.size = 256 ^ 8 := by decide
  have hdrop : digitsValue bytes / 256 ^ 8 = digitsValue (bytes.drop 8) := by
    rw [digitsValue, Nat.ofDigits_div_pow_eq_ofDigits_drop 8 (by decide) _ (forall_digit_lt _),
      ← List.map_drop, ← digitsValue]
  rw [← digitsValue_eq_zero_iff, ← hdrop, hsize, Nat.div_eq_zero_iff_lt (by decide)]

/-! ## Bytes as a word -/

namespace Memo

theorem toNat_shift_byte (word : UInt64) (byte : UInt8) :
    ((word <<< 8) ||| byte.toUInt64).toNat = (byte.toNat + 256 * word.toNat) % 2 ^ 64 := by
  have hbyte : byte.toNat < 2 ^ 8 := byte.toNat_lt
  have hshift : (word <<< 8).toNat = (word.toNat % 2 ^ 56) <<< 8 := by
    have height : (8 : UInt64).toNat % 64 = 8 := rfl
    rw [UInt64.toNat_shiftLeft, height, Nat.shiftLeft_eq, Nat.shiftLeft_eq]
    omega
  rw [UInt64.toNat_or, hshift, UInt8.toNat_toUInt64, ← Nat.shiftLeft_add_eq_or_of_lt hbyte,
    Nat.shiftLeft_eq]
  omega

theorem toNat_mote (bytes : List UInt8) : (mote bytes).toNat = digitsValue bytes % 2 ^ 64 := by
  induction bytes with
  | nil => rfl
  | cons byte rest ih =>
    have hcons : digitsValue (byte :: rest) = byte.toNat + 256 * digitsValue rest :=
      Nat.ofDigits_cons
    have hmote : mote (byte :: rest) = (mote rest <<< 8) ||| byte.toUInt64 := rfl
    rw [hmote, toNat_shift_byte, ih, hcons]
    omega

theorem mote_eq (bytes : List UInt8) : mote bytes = (digitsValue bytes).toUInt64 :=
  UInt64.toNat_inj.mp (toNat_mote bytes)

end Memo

/-! ## The bytes of a text -/

def utf8 (text : String) : List UInt8 := text.toUTF8.toList

theorem toList_loop (bytes : ByteArray) (i : Nat) (sofar : List UInt8) :
    ByteArray.toList.loop bytes i sofar = sofar.reverse ++ bytes.data.toList.drop i := by
  induction i, sofar using ByteArray.toList.loop.induct bytes with
  | case1 i sofar hlt ih =>
    have hi : i < bytes.data.toList.length := hlt
    have hget : bytes.get! i = bytes.data.toList[i] := getElem!_pos bytes.data i hi
    rw [ByteArray.toList.loop, if_pos hlt, ih, List.drop_eq_getElem_cons hi, hget]
    simp
  | case2 i sofar hge =>
    have hi : bytes.data.toList.length ≤ i := Nat.le_of_not_lt hge
    rw [ByteArray.toList.loop, if_neg hge, List.drop_eq_nil_of_le hi, List.append_nil]

theorem utf8_ofList (text : List Char) :
    utf8 (String.ofList text) = text.flatMap String.utf8EncodeChar := by
  rw [utf8, ByteArray.toList, toList_loop]
  simp [String.toUTF8, List.utf8Encode]

theorem utf8_injective {s t : String} (heq : utf8 s = utf8 t) : s = t := by
  rw [utf8, utf8, ByteArray.toList, ByteArray.toList, toList_loop, toList_loop] at heq
  apply String.toByteArray_inj.mp
  apply ByteArray.ext
  exact Array.toList_inj.mp (by simpa using heq)

theorem getLast?_utf8EncodeChar {c : Char} (hc : c ≠ '\x00') :
    ∀ byte ∈ (String.utf8EncodeChar c).getLast?, byte ≠ 0 := by
  have hvalue : c.val.toNat ≠ 0 := fun hzero => hc (Char.ext (UInt32.toNat_inj.mp hzero))
  have hbyte : ∀ n, 0 < n → n < 256 → UInt8.ofNat n ≠ 0 := by
    intro n hpos hlt hzero
    have hn : (UInt8.ofNat n).toNat = n := UInt8.toNat_ofNat_of_lt hlt
    rw [hzero] at hn
    exact absurd hn (Nat.ne_of_lt hpos)
  have hlast : ∀ n, UInt8.ofNat (n % 64 + 128) ≠ 0 := fun n => hbyte _ (by omega) (by omega)
  rw [String.utf8EncodeChar]
  split_ifs with hascii
  · simpa using hbyte _ (Nat.pos_of_ne_zero hvalue) (by omega)
  all_goals simpa using hlast _

theorem trimZeros_utf8_ofList (text : List Char) :
    trimZeros (utf8 (String.ofList text)) =
      utf8 (String.ofList (text.rdropWhile (· == '\x00'))) := by
  induction text using List.reverseRecOn with
  | nil => rw [List.rdropWhile_nil, utf8_ofList, List.flatMap_nil, trimZeros, List.rdropWhile_nil]
  | append_singleton before c ih =>
    have happend : utf8 (String.ofList (before ++ [c])) =
        utf8 (String.ofList before) ++ String.utf8EncodeChar c := by
      rw [utf8_ofList, utf8_ofList, List.flatMap_append, List.flatMap_singleton]
    by_cases hc : c = '\x00'
    · have hzero : String.utf8EncodeChar c = [0] := by
        rw [hc]
        rfl
      rw [happend, hzero, trimZeros_concat_zero, ih,
        List.rdropWhile_concat_pos _ _ _ (by simpa using hc)]
    · rw [List.rdropWhile_concat_neg _ _ _ (by simpa using hc), happend]
      apply trimZeros_eq_self
      rw [List.getLast?_append_of_ne_nil _ String.utf8EncodeChar_ne_nil]
      exact getLast?_utf8EncodeChar hc

theorem trimZeros_utf8_inj {s t : String} : trimZeros (utf8 s) = trimZeros (utf8 t) ↔
    s.toList.rdropWhile (· == '\x00') = t.toList.rdropWhile (· == '\x00') := by
  rw [← String.ofList_toList (s := s), ← String.ofList_toList (s := t), trimZeros_utf8_ofList,
    trimZeros_utf8_ofList, String.toList_ofList, String.toList_ofList]
  exact ⟨fun heq => String.ofList_injective (utf8_injective heq), fun heq => by rw [heq]⟩

/-! ## Cords -/

namespace Graph

variable {g h : Graph}

theorem cord_eq (g : Graph) (text : String) : g.cord text = g.atom (digitsValue (utf8 text)) := by
  rw [cord, ofBytes_eq]
  rfl

theorem cord_empty (g : Graph) : g.cord "" = g.atom 0 := by
  rw [cord_eq, ← String.ofList_nil, utf8_ofList]
  rfl

theorem word?_cord (wf : g.WellFormed) (text : String) : (g.cord text).2.word? (g.cord text).1 =
    if digitsValue (utf8 text) < UInt64.size then some (Memo.mote (utf8 text)) else none := by
  rw [cord_eq, Memo.mote_eq]
  exact (grows_put wf (.atom _)).2.word?_atom

/-- Two texts have one cord just when they have one number, also if more is stored in between. -/
theorem cord_fst_eq_iff (wf : g.WellFormed) {s t : String} (hgrow : (g.cord s).2.Grows h) :
    (h.cord t).1 = (g.cord s).1 ↔ digitsValue (utf8 s) = digitsValue (utf8 t) := by
  rw [cord_eq] at hgrow ⊢
  rw [cord_eq]
  have hs : h.Denotes (g.atom (digitsValue (utf8 s))).1 (.atom (digitsValue (utf8 s))) :=
    (grows_put wf (.atom _)).2.extend hgrow.extend
  obtain ⟨hgrow', ht⟩ := grows_put hgrow.wellFormed (.atom (digitsValue (utf8 t)))
  constructor
  · intro heq
    rw [put_atom, heq] at ht
    exact Noun.atom.inj ((hs.extend hgrow'.extend).functional ht)
  · intro heq
    rw [← heq, ← put_atom, put_of_denotes hgrow.wellFormed hs]

end Graph

/-! ## Terms -/

namespace Text

namespace Lexer

theorem run_term {word : List Char} (hword : ∀ c ∈ word, endsWord c = false) (sofar : String) :
    run (.term sofar) word = [.term (sofar ++ String.ofList word)] := by
  induction word generalizing sofar with
  | nil => simp [run, finish]
  | cons c rest ih =>
    have hc : endsWord c = false := hword c (by simp)
    rw [run_cons, step, if_neg (by simp [hc]), List.nil_append,
      ih fun d hd => hword d (by simp [hd])]
    congr 2
    apply String.toList_injective
    simp

end Lexer

theorem tokens_term {s : String} (hs : ∀ c ∈ s.toList, Lexer.endsWord c = false) :
    tokens ("%" ++ s) = [.term s] := by
  have hstart : Lexer.step .gap '%' = (.term "", []) := by decide
  have hlist : ("%" ++ s).toList = '%' :: s.toList := by simp
  rw [tokens, hlist, Lexer.run_cons, hstart, Lexer.run_term hs]
  simp

theorem readNoun_term {g : Graph} (wf : g.WellFormed) {s : String}
    (hs : ∀ c ∈ s.toList, isBlank c = false ∧ c ≠ '[' ∧ c ≠ ']') :
    readNoun g ("%" ++ s) = (.ok (g.cord s).1, (g.cord s).2) := by
  rw [Graph.cord, ← Graph.put_atom]
  apply readNoun_of_spells wf
  rw [tokens_term fun c hc => by simp [Lexer.endsWord, hs c hc]]
  exact .term

end Text

variable {g : Graph}

/-- The texts with one cord are those that differ in nothing but NUL characters at their ends, which
is in the zeros at the ends of their bytes. A term is read as the cord of all that follows the
percent sign, and an empty one as 0. -/
theorem cord_names (wf : g.WellFormed) :
    (∀ (s t : String) (h : Graph), (g.cord s).2.Grows h →
      ((h.cord t).1 = (g.cord s).1 ↔ trimZeros (utf8 s) = trimZeros (utf8 t)) ∧
      (trimZeros (utf8 s) = trimZeros (utf8 t) ↔
        s.toList.rdropWhile (· == '\x00') = t.toList.rdropWhile (· == '\x00'))) ∧
    (∀ s : String, (∀ c ∈ s.toList, Text.isBlank c = false ∧ c ≠ '[' ∧ c ≠ ']') →
      Text.readNoun g ("%" ++ s) = (.ok (g.cord s).1, (g.cord s).2)) ∧
    Text.readNoun g "%" = (.ok (g.atom 0).1, (g.atom 0).2) := by
  refine ⟨fun s t h hgrow => ⟨?_, trimZeros_utf8_inj⟩, fun s hs => Text.readNoun_term wf hs, ?_⟩
  · rw [Graph.cord_fst_eq_iff wf hgrow, digitsValue_inj]
  · rw [← Graph.cord_empty]
    exact Text.readNoun_term wf (show ∀ c ∈ "".toList, _ by simp)

/-- `%a::%` is one term, and a NUL at its end makes no difference. -/
theorem cord_names_colons :
    let g := Graph.empty ⟨0⟩
    ((g.cord "a::%").2.cord "a::%\x00").1 = (g.cord "a::%").1 ∧
      ((g.cord "a::%").2.cord "\x00a::%").1 ≠ (g.cord "a::%").1 ∧
      Text.readNoun g "%a::%" = (.ok (g.cord "a::%").1, (g.cord "a::%").2) := by
  intro g
  have wf := Graph.wellFormed_empty ⟨0⟩
  obtain ⟨hsame, hread, -⟩ := cord_names wf
  have hgrow : g.Grows (g.cord "a::%").2 := (Graph.grows_put wf (.atom _)).1
  have hself := Graph.Grows.refl hgrow.wellFormed
  refine ⟨?_, ?_, hread "a::%" ?_⟩
  · rw [(hsame "a::%" "a::%\x00" _ hself).1, (hsame "a::%" "a::%\x00" _ hself).2]
    decide
  · rw [Ne, (hsame "a::%" "\x00a::%" _ hself).1, (hsame "a::%" "\x00a::%" _ hself).2]
    decide
  · simp [Text.isBlank, Text.Ranges.covers, Text.blanks]

/-- A tag as a word is the value of its digits as far as it fits. The cord of a text fits in a word,
and is that of its bytes, just when nothing but zeros stands behind the eighth byte. -/
theorem tags_agree (wf : g.WellFormed) :
    (∀ bytes, (Memo.mote bytes).toNat = Nat.ofDigits 256 (bytes.map UInt8.toNat) % 2 ^ 64) ∧
    ∀ s : String,
      ((g.cord s).2.word? (g.cord s).1 = some (Memo.mote (utf8 s)) ↔
        ∀ byte ∈ (utf8 s).drop 8, byte = 0) ∧
      ((g.cord s).2.word? (g.cord s).1 = none ↔ ∃ byte ∈ (utf8 s).drop 8, byte ≠ 0) := by
  refine ⟨Memo.toNat_mote, fun s => ?_⟩
  have hlong : (∃ byte ∈ (utf8 s).drop 8, byte ≠ 0) ↔ ¬ digitsValue (utf8 s) < UInt64.size := by
    simp [digitsValue_lt_size_iff]
  rw [Graph.word?_cord wf, hlong, ← digitsValue_lt_size_iff]
  split <;> simp [*]

/-- A text of eight bytes with a NUL behind them fits in a word, and one of nine other bytes does
not. -/
theorem tags_agree_nine :
    let g := Graph.empty ⟨0⟩
    (g.cord "nestnest\x00").2.word? (g.cord "nestnest\x00").1 = some 0x7473656e7473656e ∧
      (g.cord "nestnests").2.word? (g.cord "nestnests").1 = none := by
  intro g
  have hfits : utf8 "nestnest\x00" = [110, 101, 115, 116, 110, 101, 115, 116, 0] := by
    rw [← String.ofList_toList (s := "nestnest\x00"), utf8_ofList]
    decide
  have hlong : utf8 "nestnests" = [110, 101, 115, 116, 110, 101, 115, 116, 115] := by
    rw [← String.ofList_toList (s := "nestnests"), utf8_ofList]
    decide
  obtain ⟨-, hword⟩ := tags_agree (Graph.wellFormed_empty ⟨0⟩)
  constructor
  · rw [(hword _).1.mpr (by simp [hfits]), hfits]
    decide
  · exact (hword _).2.mpr (by simp [hlong])

end NockDispatch
