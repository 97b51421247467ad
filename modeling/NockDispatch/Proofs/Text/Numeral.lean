import Mathlib.Data.Nat.Digits.Lemmas
import NockDispatch.Proofs.Text.Marks
import NockDispatch.Proofs.Text.Spelling

/-!
# Numerals

Which words are numbers, and of what value, is told here by their shape: runs of decimal digits
between single dots, or `0x` and hexadecimal digits among dots and underscores. The reader of
literals goes from left to right with the value of the digits so far, and takes exactly these words
for these values.
-/

namespace NockDispatch.Text

/-! ## Digits -/

/-- A digit in some base, and its value. A letter may stand in either case. -/
def IsDigit (base : Nat) (c : Char) (value : Nat) : Prop :=
  value < base ∧ (c = Nat.digitChar value ∨ c = (Nat.digitChar value).toUpper)

/-- The characters are the digits of a number, the highest first. -/
def Writes (base : Nat) (text : List Char) (n : Nat) : Prop :=
  ∃ digits, List.Forall₂ (IsDigit base) text digits ∧ n = Nat.ofDigits base digits.reverse

/-- The characters are digits that take a number on from the value of earlier ones. -/
def WritesOn (base value : Nat) (text : List Char) (n : Nat) : Prop :=
  ∃ digits, List.Forall₂ (IsDigit base) text digits ∧
    n = digits.foldl (fun value digit => base * value + digit) value

variable {base value n digit : Nat} {c : Char} {text rest : List Char}

instance (base : Nat) (c : Char) (value : Nat) : Decidable (IsDigit base c value) :=
  inferInstanceAs (Decidable (_ ∧ _))

theorem foldl_eq_ofDigits (base value : Nat) (digits : List Nat) :
    digits.foldl (fun value digit => base * value + digit) value =
      Nat.ofDigits base digits.reverse + base ^ digits.length * value := by
  induction digits generalizing value with
  | nil => simp
  | cons digit digits ih =>
    rw [List.foldl_cons, ih, Nat.ofDigits_reverse_cons, List.length_cons]
    ring

theorem writes_iff : Writes base text n ↔ WritesOn base 0 text n := by
  simp only [Writes, WritesOn, foldl_eq_ofDigits, Nat.mul_zero, Nat.add_zero]

theorem writesOn_nil : WritesOn base value [] n ↔ value = n := by
  constructor
  · rintro ⟨digits, hdigits, rfl⟩
    cases hdigits
    rfl
  · rintro rfl
    exact ⟨[], .nil, rfl⟩

theorem writesOn_cons : WritesOn base value (c :: rest) n ↔
    ∃ digit, IsDigit base c digit ∧ WritesOn base (base * value + digit) rest n := by
  constructor
  · rintro ⟨digits, hdigits, rfl⟩
    cases hdigits with
    | cons hdigit hrest => exact ⟨_, hdigit, _, hrest, rfl⟩
  · rintro ⟨digit, hdigit, digits, hrest, rfl⟩
    exact ⟨digit :: digits, .cons hdigit hrest, rfl⟩

theorem writes_concat (hw : Writes base text n) (hd : IsDigit base c digit) :
    Writes base (text ++ [c]) (base * n + digit) := by
  obtain ⟨digits, hdigits, rfl⟩ := hw
  refine ⟨digits ++ [digit], List.rel_append hdigits (.cons hd .nil), ?_⟩
  rw [List.reverse_append, List.reverse_singleton, List.singleton_append, Nat.ofDigits_cons,
    Nat.add_comm]

theorem toNat_lt_of_hexDigit? (hc : hexDigit? c = some digit) : c.toNat < 128 := by
  have hle : ∀ {last : Char}, c ≤ last → c.toNat ≤ last.toNat := fun h => h
  unfold hexDigit? at hc
  split_ifs at hc with h₁ h₂ h₃
  · exact Nat.lt_of_le_of_lt (hle h₁.2) (by decide)
  · exact Nat.lt_of_le_of_lt (hle h₂.2) (by decide)
  · exact Nat.lt_of_le_of_lt (hle h₃.2) (by decide)

theorem hexDigit?_eq_some : hexDigit? c = some digit ↔ IsDigit 16 c digit := by
  have hascii : ∀ k < 128, ∀ digit ∈ hexDigit? (Char.ofNat k), IsDigit 16 (Char.ofNat k) digit := by
    decide
  have hdigits : ∀ digit < 16, hexDigit? (Nat.digitChar digit) = some digit ∧
      hexDigit? (Nat.digitChar digit).toUpper = some digit := by decide
  constructor
  · intro hc
    have hall := hascii c.toNat (toNat_lt_of_hexDigit? hc) digit
    rw [Char.ofNat_toNat] at hall
    exact hall hc
  · rintro ⟨hlt, rfl | rfl⟩
    · exact (hdigits digit hlt).1
    · exact (hdigits digit hlt).2

theorem decimalDigit?_eq_filter (c : Char) : decimalDigit? c = (hexDigit? c).filter (· < 10) := by
  unfold decimalDigit? hexDigit?
  split_ifs with hdecimal
  · have hle : c.toNat ≤ '9'.toNat := hdecimal.2
    have hnine : '9'.toNat = '0'.toNat + 9 := rfl
    rw [Option.filter_some_pos]
    simp only [decide_eq_true_eq]
    omega
  · rw [Option.filter_some_neg]
    simp
  · rw [Option.filter_some_neg]
    simp
  · rfl

theorem decimalDigit?_eq_some : decimalDigit? c = some digit ↔ IsDigit 10 c digit := by
  rw [decimalDigit?_eq_filter, Option.filter_eq_some_iff, hexDigit?_eq_some, decide_eq_true_eq]
  constructor
  · exact fun h => ⟨h.2, h.1.2⟩
  · exact fun h => ⟨⟨Nat.lt_trans h.1 (by decide), h.2⟩, h.1⟩

theorem IsDigit.hexadecimal (hc : IsDigit 10 c digit) : IsDigit 16 c digit :=
  ⟨Nat.lt_trans hc.1 (by decide), hc.2⟩

theorem IsDigit.ne {other : Char} (hc : IsDigit 16 c digit) (hother : hexDigit? other = none) :
    c ≠ other := by
  rintro rfl
  rw [hexDigit?_eq_some.mpr hc] at hother
  cases hother

/-! ## Decimal words -/

namespace Decimal

/-- Runs of characters with a dot between each of them and the next. -/
abbrev dotted (groups : List (List Char)) : List Char := ['.'].intercalate groups

theorem dotted_nil_cons {groups : List (List Char)} (hne : groups ≠ []) :
    dotted ([] :: groups) = '.' :: dotted groups := by
  rw [dotted, List.intercalate_cons_of_ne_nil hne]
  rfl

theorem dotted_cons_cons (c : Char) (group : List Char) (groups : List (List Char)) :
    dotted ((c :: group) :: groups) = c :: dotted (group :: groups) :=
  List.intercalate_cons_cons_left

theorem not_isDigit_dot : ¬ IsDigit 10 '.' digit :=
  fun hdot => hdot.hexadecimal.ne (by decide) rfl

def Begins (value : Nat) (text : List Char) (n : Nat) : Prop :=
  ∃ runs, runs ≠ [] ∧ (∀ run ∈ runs, run ≠ []) ∧ text = dotted runs ∧
    WritesOn 10 value runs.flatten n

def Continues (value : Nat) (text : List Char) (n : Nat) : Prop :=
  ∃ run more, (∀ run ∈ more, run ≠ []) ∧ text = dotted (run :: more) ∧
    WritesOn 10 value (run ++ more.flatten) n

theorem begins_nil : ¬ Begins value [] n := by
  rintro ⟨_ | ⟨_ | ⟨c, run⟩, more⟩, hne, hruns, htext, -⟩
  · exact hne rfl
  · exact hruns [] (by simp) rfl
  · rw [dotted_cons_cons] at htext
    cases htext

theorem begins_cons : Begins value (c :: rest) n ↔
    ∃ digit, IsDigit 10 c digit ∧ Continues (10 * value + digit) rest n := by
  constructor
  · rintro ⟨_ | ⟨_ | ⟨d, run⟩, more⟩, hne, hruns, htext, hw⟩
    · exact absurd rfl hne
    · exact absurd rfl (hruns [] (by simp))
    · rw [dotted_cons_cons] at htext
      cases htext
      obtain ⟨digit, hdigit, hw⟩ := writesOn_cons.mp hw
      exact ⟨digit, hdigit, run, more, fun run hrun => hruns run (by simp [hrun]), rfl, hw⟩
  · rintro ⟨digit, hdigit, run, more, hmore, rfl, hw⟩
    exact ⟨(c :: run) :: more, by simp, by simpa using hmore, by rw [dotted_cons_cons],
      writesOn_cons.mpr ⟨digit, hdigit, hw⟩⟩

theorem continues_nil : Continues value [] n ↔ value = n := by
  constructor
  · rintro ⟨_ | ⟨c, run⟩, _ | ⟨next, more⟩, -, htext, hw⟩
    · exact writesOn_nil.mp hw
    · rw [dotted_nil_cons (List.cons_ne_nil _ _)] at htext
      cases htext
    · cases htext
    · rw [dotted_cons_cons] at htext
      cases htext
  · intro heq
    exact ⟨[], [], by simp, rfl, writesOn_nil.mpr heq⟩

theorem continues_dot : Continues value ('.' :: rest) n ↔ Begins value rest n := by
  constructor
  · rintro ⟨_ | ⟨c, run⟩, more, hmore, htext, hw⟩
    · have hne : more ≠ [] := by
        rintro rfl
        cases htext
      rw [dotted_nil_cons hne] at htext
      cases htext
      exact ⟨more, hne, hmore, rfl, hw⟩
    · rw [dotted_cons_cons] at htext
      cases htext
      obtain ⟨digit, hdigit, -⟩ := writesOn_cons.mp hw
      exact absurd hdigit not_isDigit_dot
  · rintro ⟨runs, hne, hruns, rfl, hw⟩
    exact ⟨[], runs, hruns, (dotted_nil_cons hne).symm, hw⟩

theorem continues_cons (hc : c ≠ '.') : Continues value (c :: rest) n ↔
    ∃ digit, IsDigit 10 c digit ∧ Continues (10 * value + digit) rest n := by
  constructor
  · rintro ⟨_ | ⟨d, run⟩, more, hmore, htext, hw⟩
    · cases more with
      | nil => cases htext
      | cons next more =>
        rw [dotted_nil_cons (List.cons_ne_nil _ _)] at htext
        cases htext
        exact absurd rfl hc
    · rw [dotted_cons_cons] at htext
      cases htext
      obtain ⟨digit, hdigit, hw⟩ := writesOn_cons.mp hw
      exact ⟨digit, hdigit, run, more, hmore, rfl, hw⟩
  · rintro ⟨digit, hdigit, run, more, hmore, rfl, hw⟩
    exact ⟨c :: run, more, hmore, by rw [dotted_cons_cons], writesOn_cons.mpr ⟨digit, hdigit, hw⟩⟩

theorem groups_digit (hc : c ≠ '.') (value : Nat) (inGroup : Bool) (rest : List Char) :
    groups value inGroup (c :: rest) =
      (decimalDigit? c).bind fun digit => groups (10 * value + digit) true rest := by
  rw [groups, if_neg hc]
  cases decimalDigit? c <;> rfl

/-- The reader of decimal words accepts runs of digits between single dots. -/
theorem groups_eq_some (text : List Char) (value n : Nat) :
    (groups value true text = some n ↔ Continues value text n) ∧
      (groups value false text = some n ↔ Begins value text n) := by
  induction text generalizing value with
  | nil =>
    rw [continues_nil, groups, groups]
    exact ⟨by simp, by simp [begins_nil]⟩
  | cons c text ih =>
    by_cases hc : c = '.'
    · subst hc
      rw [continues_dot, begins_cons, groups, groups]
      exact ⟨(ih value).2, by simp [not_isDigit_dot]⟩
    · simp only [continues_cons hc, begins_cons, groups_digit hc, Option.bind_eq_some_iff,
        decimalDigit?_eq_some, (ih _).1, and_self]

end Decimal

/-! ## Hexadecimal words -/

namespace Hexadecimal

theorem digits_eq_some : digits value text = some n ↔
    WritesOn 16 value (text.filter (· != '_')) n := by
  induction text generalizing value with
  | nil => simp [digits, writesOn_nil]
  | cons c text ih =>
    rw [digits]
    split
    · next hc => simpa [hc] using ih
    · next hc =>
      have hfilter : (c :: text).filter (· != '_') = c :: text.filter (· != '_') := by simp [hc]
      rw [hfilter, writesOn_cons]
      simp only [← hexDigit?_eq_some, ← ih]
      cases hexDigit? c <;> simp

/-- A digit, and more of them among underscores. -/
def Begins (text : List Char) (n : Nat) : Prop :=
  ∃ first more, text = first :: more ∧ Writes 16 (first :: more.filter (· != '_')) n

theorem number?_eq_some : number? text = some n ↔ Begins text n := by
  cases text with
  | nil => simp [number?, Begins]
  | cons c text =>
    have hnumber : number? (c :: text) = (hexDigit? c).bind fun digit => digits digit text := by
      rw [number?]
      cases hexDigit? c <;> rfl
    simp only [hnumber, Option.bind_eq_some_iff, hexDigit?_eq_some, digits_eq_some, Begins,
      writes_iff, writesOn_cons, Nat.mul_zero, Nat.zero_add]
    constructor
    · exact fun h => ⟨c, text, rfl, h⟩
    · rintro ⟨_, _, heq, h⟩
      cases heq
      exact h

theorem not_begins_plus : ¬ Begins ('+' :: rest) n := by
  have hnone : number? ('+' :: rest) = none := rfl
  rw [← number?_eq_some, hnone]
  exact nofun

theorem unsigned?_eq_some : unsigned? text = some n ↔
    ∃ sign body, text = sign ++ body ∧ (sign = [] ∨ sign = ['+']) ∧ Begins body n := by
  have hplain : unsigned? text = some n ↔
      Begins text n ∨ ∃ body, text = '+' :: body ∧ Begins body n := by
    unfold unsigned?
    split
    · simp [number?_eq_some, not_begins_plus]
    · next hplus =>
      rw [number?_eq_some, or_iff_left]
      rintro ⟨body, heq, -⟩
      exact hplus body heq
  rw [hplain]
  constructor
  · rintro (hbody | ⟨body, rfl, hbody⟩)
    · exact ⟨[], text, rfl, .inl rfl, hbody⟩
    · exact ⟨['+'], body, rfl, .inr rfl, hbody⟩
  · rintro ⟨_, body, rfl, rfl | rfl, hbody⟩
    · exact .inl hbody
    · exact .inr ⟨body, rfl, hbody⟩

end Hexadecimal

/-! ## Words -/

/-- The words that are numbers. -/
inductive Numeral : List Char → Nat → Prop
  | decimal {runs n} : runs ≠ [] → (∀ run ∈ runs, run ≠ []) → Writes 10 runs.flatten n →
      Numeral (['.'].intercalate runs) n
  /-- `0x`, and without the dots behind it a plus sign or none, a hexadecimal digit, and more of
  them among underscores. -/
  | hexadecimal {text sign first more n} : text.filter (· != '.') = sign ++ first :: more →
      (sign = [] ∨ sign = ['+']) → Writes 16 (first :: more.filter (· != '_')) n →
      Numeral ('0' :: 'x' :: text) n

theorem numeral_iff : Numeral text n ↔ Decimal.Begins 0 text n ∨
    ∃ rest, text = '0' :: 'x' :: rest ∧
      Hexadecimal.unsigned? (rest.filter (· != '.')) = some n := by
  simp only [Hexadecimal.unsigned?_eq_some]
  constructor
  · rintro (⟨hne, hruns, hw⟩ | ⟨htext, hsign, hw⟩)
    · exact .inl ⟨_, hne, hruns, rfl, writes_iff.mp hw⟩
    · exact .inr ⟨_, rfl, _, _, htext, hsign, _, _, rfl, hw⟩
  · rintro (⟨runs, hne, hruns, rfl, hw⟩ | ⟨rest, rfl, sign, _, htext, hsign, first, more, rfl, hw⟩)
    · exact .decimal hne hruns (writes_iff.mpr hw)
    · exact .hexadecimal htext hsign hw

theorem not_begins_hexadecimal : ¬ Decimal.Begins 0 ('0' :: 'x' :: rest) n := by
  rw [Decimal.begins_cons]
  rintro ⟨_, -, h⟩
  obtain ⟨_, hx, -⟩ := (Decimal.continues_cons (by decide)).mp h
  exact hx.hexadecimal.ne (by decide) rfl

/-- A literal has a value just when its word is a numeral, and then it is the same. -/
theorem literal?_eq_some {word : String} : literal? word = some n ↔ Numeral word.toList n := by
  rw [literal?, numeral_iff]
  generalize word.toList = text
  split
  · next rest =>
    rw [or_iff_right not_begins_hexadecimal]
    simp
  · next hplain =>
    rw [(Decimal.groups_eq_some text 0 n).2, or_iff_left]
    rintro ⟨rest, heq, -⟩
    exact hplain rest heq

/-! ## The numerals of a number -/

theorem writes_toDigits (hbase : 1 < base) (n : Nat) : Writes base (Nat.toDigits base n) n := by
  induction n using Nat.strongRecOn with
  | _ n ih =>
    rw [Nat.toDigits_eq_if hbase]
    split
    · next hlt => exact ⟨[n], .cons ⟨hlt, .inl rfl⟩ .nil, by simp⟩
    · next hge =>
      have hless : n / base < n := Nat.div_lt_self (by omega) hbase
      have hlast : IsDigit base (Nat.digitChar (n % base)) (n % base) :=
        ⟨Nat.mod_lt n (by omega), .inl rfl⟩
      have hw := writes_concat (ih _ hless) hlast
      rwa [Nat.div_add_mod] at hw

theorem WritesOn.of_cases {text' : List Char} (hbase : base ≤ 16) (hw : WritesOn base value text n)
    (hcase : List.Forall₂ (fun c d => c = d ∨ c = d.toUpper) text' text) :
    WritesOn base value text' n := by
  induction hcase generalizing value with
  | nil => exact hw
  | @cons c d _ _ hc _ ih =>
    obtain ⟨digit, ⟨hlt, hd⟩, hw⟩ := writesOn_cons.mp hw
    refine writesOn_cons.mpr ⟨digit, ⟨hlt, ?_⟩, ih hw⟩
    rcases hc with rfl | rfl
    · exact hd
    · rcases hd with rfl | rfl
      · exact .inr rfl
      · have hupper : ∀ digit < 16, (Nat.digitChar digit).toUpper.toUpper =
            (Nat.digitChar digit).toUpper := by decide
        exact .inr (hupper digit (Nat.lt_of_lt_of_le hlt hbase))

/-! ## Reading words -/

/-- A word that has to be a number: it has no blanks and no brackets, and it does not begin as a
term or a comment does. -/
def IsWord (text : List Char) : Prop :=
  ∃ first rest, text = first :: rest ∧ first ≠ '%' ∧ first ≠ ':' ∧
    ∀ c ∈ text, Lexer.endsWord c = false

theorem endsWord_of_any (hany : text.any Lexer.endsWord = false) :
    ∀ c ∈ text, Lexer.endsWord c = false := by
  simpa using hany

theorem tokens_of_isWord {word : String} (hword : IsWord word.toList) :
    tokens word = [.atom word] := by
  obtain ⟨first, rest, htext, hterm, hcomment, hends⟩ := hword
  rw [htext] at hends
  have hfirst := hends first (by simp)
  simp only [Lexer.endsWord, Bool.or_eq_false_iff, beq_eq_false_iff_ne] at hfirst
  obtain ⟨⟨hblank, hopening⟩, hclosing⟩ := hfirst
  have hstart : Lexer.start first = (.word (String.singleton first), []) := by
    simp [Lexer.start, hblank, hopening, hclosing, hcomment, hterm]
  have hrest : ∀ c ∈ rest, Lexer.endsWord c = false := fun c hc =>
    hends c (List.mem_cons_of_mem first hc)
  have hrun := Lexer.run_gap_word hstart hrest []
  rw [tokens, htext, ← List.append_nil (first :: rest), hrun, ← htext, String.ofList_toList]
  rfl

def InNumeral (c : Char) : Prop := c ∈ ['.', 'x', '+', '_'] ∨ ∃ digit, IsDigit 16 c digit

theorem InNumeral.endsWord_eq (hc : InNumeral c) : Lexer.endsWord c = false := by
  have hmarks : ['.', 'x', '+', '_'].any Lexer.endsWord = false := by decide
  have hdigits : ∀ digit < 16, Lexer.endsWord (Nat.digitChar digit) = false ∧
      Lexer.endsWord (Nat.digitChar digit).toUpper = false := by decide
  rcases hc with hc | ⟨digit, hlt, rfl | rfl⟩
  · exact endsWord_of_any hmarks c hc
  · exact (hdigits digit hlt).1
  · exact (hdigits digit hlt).2

theorem WritesOn.forall_isDigit (hw : WritesOn base value text n) :
    ∀ c ∈ text, ∃ digit, IsDigit base c digit := by
  obtain ⟨digits, hdigits, -⟩ := hw
  induction hdigits with
  | nil => simp
  | cons hd _ ih => simpa using ⟨⟨_, hd⟩, ih⟩

theorem isWord_of_inNumeral {first : Char} (hfirst : IsDigit 16 first digit)
    (hall : ∀ c ∈ rest, InNumeral c) : IsWord (first :: rest) := by
  refine ⟨first, rest, rfl, hfirst.ne (by decide), hfirst.ne (by decide), ?_⟩
  rw [List.forall_mem_cons]
  exact ⟨InNumeral.endsWord_eq (.inr ⟨_, hfirst⟩), fun c hc => (hall c hc).endsWord_eq⟩

theorem mem_dotted {runs : List (List Char)} (hc : c ∈ Decimal.dotted runs) :
    c = '.' ∨ c ∈ runs.flatten := by
  induction runs with
  | nil => simp at hc
  | cons run runs ih =>
    cases runs with
    | nil => exact .inr (by simpa using hc)
    | cons next runs =>
      rw [Decimal.dotted, List.intercalate_cons_cons, List.mem_append, List.mem_append,
        List.mem_singleton] at hc
      rw [List.flatten_cons, List.mem_append]
      rcases hc with (hc | hc) | hc
      · exact .inr (.inl hc)
      · exact .inl hc
      · exact (ih hc).imp_right .inr

theorem Numeral.isWord (hn : Numeral text n) : IsWord text := by
  cases hn with
  | @decimal runs _ hne hruns hw =>
    have hdigits := (writes_iff.mp hw).forall_isDigit
    have hall : ∀ c ∈ Decimal.dotted runs, InNumeral c := by
      intro c hc
      rcases mem_dotted hc with rfl | hc
      · exact .inl (by simp)
      · obtain ⟨digit, hdigit⟩ := hdigits c hc
        exact .inr ⟨digit, hdigit.hexadecimal⟩
    obtain _ | ⟨_ | ⟨first, run⟩, more⟩ := runs
    · exact absurd rfl hne
    · exact absurd rfl (hruns [] (by simp))
    · obtain ⟨digit, hfirst⟩ := hdigits first (by simp)
      rw [← Decimal.dotted, Decimal.dotted_cons_cons] at *
      exact isWord_of_inNumeral hfirst.hexadecimal fun c hc => hall c (List.mem_cons_of_mem _ hc)
  | @hexadecimal text sign first more _ htext hsign hw =>
    have hzero : IsDigit 16 '0' 0 := by decide
    have hdigits := (writes_iff.mp hw).forall_isDigit
    refine isWord_of_inNumeral hzero fun c hc => ?_
    rcases List.mem_cons.mp hc with rfl | hc
    · exact .inl (by simp)
    by_cases hdot : c = '.'
    · exact .inl (by simp [hdot])
    have hmem : c ∈ sign ++ first :: more := by
      rw [← htext]
      exact List.mem_filter.mpr ⟨hc, by simpa using hdot⟩
    rcases List.mem_append.mp hmem with hc | hc
    · rcases hsign with rfl | rfl
      · simp at hc
      · exact .inl (by simp [List.mem_singleton.mp hc])
    · by_cases hunderscore : c = '_'
      · exact .inl (by simp [hunderscore])
      refine .inr (hdigits c ?_)
      simpa [hunderscore] using hc

theorem readNoun_numeral {g : Graph} (wf : g.WellFormed) {word : String}
    (hword : IsWord word.toList) (hn : Numeral word.toList n) :
    readNoun g word = (.ok (g.put (.atom n)).1, (g.put (.atom n)).2) := by
  apply readNoun_of_spells wf
  rw [tokens_of_isWord hword]
  exact .atom (literal?_eq_some.mpr hn)

theorem readNoun_no_numeral (g : Graph) {word : String} (hword : IsWord word.toList)
    (hno : ∀ n, ¬ Numeral word.toList n) : readNoun g word = (.error (.badAtom word), g) := by
  have hnone : literal? word = none := by
    rw [Option.eq_none_iff_forall_ne_some]
    exact fun n hn => hno n (literal?_eq_some.mp hn)
  rw [readNoun, tokens_of_isWord hword, Reader.read, Reader.readWithin_cons_error]
  simp only [Reader.step, hnone]

/-- The word is read as a noun that is that number. -/
def ReadsNumber (g : Graph) (word : String) (n : Nat) : Prop :=
  ∃ id, (readNoun g word).1 = .ok id ∧ (readNoun g word).2.Denotes id (.atom n)

theorem Numeral.readsNumber {g : Graph} (wf : g.WellFormed) {word : String}
    (hn : Numeral word.toList n) : ReadsNumber g word n := by
  rw [ReadsNumber, readNoun_numeral wf hn.isWord hn]
  exact ⟨_, rfl, (Graph.grows_put wf _).2⟩

theorem readsNumber_iff {g : Graph} (wf : g.WellFormed) {word : String}
    (hword : IsWord word.toList) : ReadsNumber g word n ↔ Numeral word.toList n := by
  refine ⟨fun ⟨id, hok, hd⟩ => ?_, fun hn => hn.readsNumber wf⟩
  by_cases hno : ∀ m, ¬ Numeral word.toList m
  · rw [readNoun_no_numeral g hword hno] at hok
    cases hok
  · push Not at hno
    obtain ⟨m, hm⟩ := hno
    rw [readNoun_numeral wf hword hm] at hok hd
    cases hok
    cases hd.functional (Graph.grows_put wf (.atom m)).2
    exact hm

theorem numeral_decimal {runs : List (List Char)} (hruns : ∀ run ∈ runs, run ≠ [])
    (hdigits : runs.flatten = Nat.toDigits 10 n) : Numeral (['.'].intercalate runs) n := by
  have hne : runs ≠ [] := by
    rintro rfl
    exact Nat.toDigits_ne_nil hdigits.symm
  refine .decimal hne hruns ?_
  rw [hdigits]
  exact writes_toDigits (by decide) n

theorem numeral_hexadecimal
    (hdigits : List.Forall₂ (fun c d => c = d ∨ c = d.toUpper) (text.filter (· != '.'))
      (Nat.toDigits 16 n)) : Numeral ('0' :: 'x' :: text) n := by
  have hlower : WritesOn 16 0 (Nat.toDigits 16 n) n :=
    writes_iff.mp (writes_toDigits (by decide) n)
  have hw := hlower.of_cases (by decide) hdigits
  cases hfilter : text.filter (· != '.') with
  | nil =>
    rw [hfilter] at hdigits
    exact absurd (List.forall₂_nil_left_iff.mp hdigits) Nat.toDigits_ne_nil
  | cons first more =>
    rw [hfilter] at hw
    have hmore : more.filter (· != '_') = more := by
      rw [List.filter_eq_self]
      intro c hc
      obtain ⟨digit, hdigit⟩ := hw.forall_isDigit c (List.mem_cons_of_mem first hc)
      exact bne_iff_ne.mpr (hdigit.ne (by decide))
    have hunsigned : text.filter (· != '.') = [] ++ first :: more := hfilter
    refine .hexadecimal hunsigned (.inl rfl) ?_
    rw [hmore]
    exact writes_iff.mpr hw

/-- A word is read as a number just when it is a numeral of it, and every other word is reported and
stores nothing. All digits of a number may be set apart by single dots, and in hexadecimal dots may
stand anywhere behind `0x` and letters be in either case. -/
theorem readNoun_word {g : Graph} (wf : g.WellFormed) :
    (∀ word : String, IsWord word.toList →
      (∀ n, ReadsNumber g word n ↔ Numeral word.toList n) ∧
      ((∀ n, ¬ Numeral word.toList n) → readNoun g word = (.error (.badAtom word), g))) ∧
    (∀ (n : Nat) (runs : List (List Char)), (∀ run ∈ runs, run ≠ []) →
      runs.flatten = Nat.toDigits 10 n →
      ReadsNumber g (String.ofList (['.'].intercalate runs)) n) ∧
    ∀ (n : Nat) (text : List Char),
      List.Forall₂ (fun c d => c = d ∨ c = d.toUpper) (text.filter (· != '.'))
        (Nat.toDigits 16 n) →
      ReadsNumber g ("0x" ++ String.ofList text) n := by
  refine ⟨fun word hword => ⟨fun n => readsNumber_iff wf hword, readNoun_no_numeral g hword⟩,
    fun n runs hruns hdigits => ?_, fun n text hdigits => ?_⟩
  · apply Numeral.readsNumber wf
    rw [String.toList_ofList]
    exact numeral_decimal hruns hdigits
  · apply Numeral.readsNumber wf
    have htext : ("0x" ++ String.ofList text).toList = '0' :: 'x' :: text := by simp
    rw [htext]
    exact numeral_hexadecimal hdigits

/-- `1.0.24` and `0x.F.f` are read, and an empty run of digits is not. -/
theorem readNoun_word_dotted :
    ReadsNumber (.empty ⟨0⟩) "1.0.24" 1024 ∧ ReadsNumber (.empty ⟨0⟩) "0x.F.f" 255 ∧
    readNoun (.empty ⟨0⟩) "1..024" = (.error (.badAtom "1..024"), .empty ⟨0⟩) := by
  obtain ⟨hword, hdecimal, hhexadecimal⟩ := readNoun_word (Graph.wellFormed_empty ⟨0⟩)
  have hno : ∀ n, ¬ Numeral "1..024".toList n := by
    intro n hn
    have hnone : literal? "1..024" = none := by rfl
    rw [← literal?_eq_some, hnone] at hn
    cases hn
  refine ⟨hdecimal 1024 [['1'], ['0'], ['2', '4']] (by decide) (by decide),
    hhexadecimal 255 ['.', 'F', '.', 'f'] ?_, (hword _ ⟨'1', _, rfl, ?_⟩).2 hno⟩
  · exact .cons (.inr (by decide)) (.cons (.inl (by decide)) .nil)
  · have hends : "1..024".toList.any Lexer.endsWord = false := by decide
    exact ⟨by decide, by decide, endsWord_of_any hends⟩

end NockDispatch.Text
