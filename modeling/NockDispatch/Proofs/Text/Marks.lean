import NockDispatch.Text.Printer
import NockDispatch.Text.Token
import NockDispatch.Text.Literal

/-!
# The tokens of written marks

The text of a row of marks lexes into one token for each mark: between two words there is a space,
and everywhere else there is a bracket. A number is written in decimal digits, which make up a word
that is the literal of that number.
-/

namespace NockDispatch.Text

/-! ## Decimal digits -/

variable {c : Char}

theorem bounds_of_isDigit (hc : c.isDigit = true) : 48 ≤ c.toNat ∧ c.toNat ≤ 57 := by
  simpa [Char.isDigit, UInt32.le_iff_toNat_le] using hc

theorem isBlank_of_isDigit (hc : c.isDigit = true) : isBlank c = false := by
  have hbounds := bounds_of_isDigit hc
  simp only [isBlank, Ranges.covers, blanks, List.any_eq_false, List.forall_mem_cons]
  simp
  omega

theorem ne_of_isDigit {other : Char} (hc : c.isDigit = true) (hother : other.isDigit = false) :
    c ≠ other := by
  rintro rfl
  rw [hc] at hother
  cases hother

theorem decimalDigit?_of_isDigit (hc : c.isDigit = true) :
    decimalDigit? c = some (c.toNat - '0'.toNat) := by
  have hbounds := bounds_of_isDigit hc
  rw [decimalDigit?, if_pos]
  exact ⟨hbounds.1, hbounds.2⟩

namespace Decimal

theorem groups_cons_of_isDigit (hc : c.isDigit = true) (value : Nat) (inGroup : Bool)
    (rest : List Char) :
    groups value inGroup (c :: rest) = groups (10 * value + (c.toNat - '0'.toNat)) true rest := by
  rw [groups, if_neg (ne_of_isDigit hc (by decide)), decimalDigit?_of_isDigit hc]

theorem groups_digits (value : Nat) {digits : List Char} (hd : ∀ c ∈ digits, c.isDigit = true) :
    groups value true digits = some (Nat.ofDigitChars 10 digits value) := by
  induction digits generalizing value with
  | nil => rfl
  | cons c rest ih =>
    rw [groups_cons_of_isDigit (hd c (by simp)), ih _ fun c hc => hd c (by simp [hc]),
      Nat.ofDigitChars_cons]

end Decimal

theorem toList_toString (n : Nat) : (toString n).toList = Nat.toDigits 10 n := by
  rw [Nat.toString_eq_repr, Nat.toList_repr]

theorem exists_toDigits (n : Nat) :
    ∃ c rest, Nat.toDigits 10 n = c :: rest ∧ c.isDigit = true ∧ ∀ d ∈ rest, d.isDigit = true := by
  have hall : ∀ d ∈ Nat.toDigits 10 n, d.isDigit = true := fun d hd =>
    Nat.isDigit_of_mem_toDigits (by decide) (by decide) hd
  cases hdigits : Nat.toDigits 10 n with
  | nil => exact absurd hdigits Nat.toDigits_ne_nil
  | cons c rest =>
    rw [hdigits] at hall
    exact ⟨c, rest, rfl, hall c (by simp), fun d hd => hall d (by simp [hd])⟩

/-- A number in decimal digits is its own literal. -/
theorem literal?_toString (n : Nat) : literal? (toString n) = some n := by
  obtain ⟨c, rest, hdigits, hc, hrest⟩ := exists_toDigits n
  have hvalue : Nat.ofDigitChars 10 (c :: rest) 0 = n := by
    rw [← hdigits]
    exact Nat.ofDigitChars_toDigits (by decide) (by decide)
  rw [literal?, toList_toString, hdigits]
  split
  · next heq =>
    cases heq
    exact absurd (hrest 'x' (by simp)) (by decide)
  · rw [Decimal.groups_cons_of_isDigit hc, Decimal.groups_digits _ hrest, ← Nat.ofDigitChars_cons,
      hvalue]

/-! ## Lexing marks -/

namespace Lexer

theorem run_word {word : List Char} (hword : ∀ c ∈ word, endsWord c = false) (sofar : String)
    (more : List Char) :
    run (.word sofar) (word ++ more) = run (.word (sofar ++ String.ofList word)) more := by
  induction word generalizing sofar with
  | nil => simp
  | cons c rest ih =>
    have hc : endsWord c = false := hword c (by simp)
    rw [List.cons_append, run_cons, step, if_neg (by simp [hc]), List.nil_append,
      ih fun d hd => hword d (by simp [hd])]
    congr 2
    apply String.toList_injective
    simp

theorem run_gap_word {rest : List Char} (hc : start c = (.word (String.singleton c), []))
    (hrest : ∀ d ∈ rest, endsWord d = false) (more : List Char) :
    run .gap (c :: rest ++ more) = run (.word (String.ofList (c :: rest))) more := by
  rw [List.cons_append, run_cons, step, hc, List.nil_append, run_word hrest]
  congr 2
  apply String.toList_injective
  simp

theorem endsWord_of_isDigit (hc : c.isDigit = true) : endsWord c = false := by
  simp [endsWord, isBlank_of_isDigit hc, ne_of_isDigit hc (show '['.isDigit = false by decide),
    ne_of_isDigit hc (show ']'.isDigit = false by decide)]

theorem start_of_isDigit (hc : c.isDigit = true) :
    start c = (.word (String.singleton c), []) := by
  simp [start, isBlank_of_isDigit hc, ne_of_isDigit hc (show '['.isDigit = false by decide),
    ne_of_isDigit hc (show ']'.isDigit = false by decide),
    ne_of_isDigit hc (show ':'.isDigit = false by decide),
    ne_of_isDigit hc (show '%'.isDigit = false by decide)]

end Lexer

namespace Piece

def token : Piece → Token
  | opening => .opening
  | closing => .closing
  | atom value => .atom (toString value)
  | cut => .atom "..."

/-- What the lexer is in the middle of behind a mark. -/
def mode : Piece → Lexer.Mode
  | opening => .gap
  | closing => .gap
  | atom value => .word (toString value)
  | cut => .word "..."

/-- The tokens that are complete right behind a mark. -/
def done : Piece → List Token
  | opening => [.opening]
  | closing => [.closing]
  | atom _ => []
  | cut => []

theorem done_append_finish (piece : Piece) :
    piece.done ++ Lexer.finish piece.mode = [piece.token] := by
  cases piece <;> rfl

theorem run_gap (piece : Piece) (more : List Char) :
    Lexer.run .gap (piece.text.toList ++ more) = piece.done ++ Lexer.run piece.mode more := by
  cases piece with
  | opening => rfl
  | closing => rfl
  | atom value =>
    obtain ⟨c, rest, hdigits, hc, hrest⟩ := exists_toDigits value
    have hword := toList_toString value
    rw [hdigits] at hword
    rw [text, hword, Lexer.run_gap_word (Lexer.start_of_isDigit hc) fun d hd =>
      Lexer.endsWord_of_isDigit (hrest d hd), ← hword, String.ofList_toList]
    rfl
  | cut =>
    have hdot : Lexer.endsWord '.' = false := by decide
    have htext : cut.text.toList = ['.', '.', '.'] := rfl
    rw [htext, Lexer.run_gap_word (by decide) (by simp [hdot])]
    rfl

def between (left right : Piece) : String :=
  if left.apart right then " " else ""

/-- Behind a mark, the next one completes it. -/
theorem run_mode (left right : Piece) (more : List Char) :
    Lexer.run left.mode ((left.between right).toList ++ (right.text.toList ++ more)) =
      Lexer.finish left.mode ++ (right.done ++ Lexer.run right.mode more) := by
  have hspace : Lexer.step left.mode ' ' = (.gap, Lexer.finish left.mode) := by
    cases left <;> rfl
  have hclosing : Lexer.step left.mode ']' = (.gap, Lexer.finish left.mode ++ [.closing]) := by
    cases left <;> rfl
  rw [between]
  split
  · rw [show (" " : String).toList = [' '] from rfl, List.singleton_append, Lexer.run_cons, hspace,
      run_gap]
  · next hapart =>
    rw [String.toList_empty, List.nil_append]
    obtain rfl | rfl : left = opening ∨ right = closing := by
      simpa [apart, Decidable.or_iff_not_imp_left] using hapart
    · exact run_gap right more
    · rw [show closing.text.toList = [']'] from rfl, List.singleton_append, Lexer.run_cons,
        hclosing, List.append_assoc]
      rfl

theorem textAfter_cons (written : String) (left right : Piece) (rest : List Piece) :
    textAfter written left (right :: rest) =
      textAfter (written ++ left.between right ++ right.text) right rest := by
  rw [textAfter, between]
  split <;> simp

theorem textAfter_append (written more : String) (left : Piece) (rest : List Piece) :
    textAfter (written ++ more) left rest = written ++ textAfter more left rest := by
  induction rest generalizing more left with
  | nil => rfl
  | cons right rest ih =>
    rw [textAfter_cons, textAfter_cons, String.append_assoc, String.append_assoc, ih,
      String.append_assoc]

theorem run_textAfter (left : Piece) (rest : List Piece) :
    Lexer.run left.mode (textAfter "" left rest).toList =
      Lexer.finish left.mode ++ rest.map token := by
  -- What is lexed behind a mark begins with what the mark itself still has to give.
  induction rest generalizing left with
  | nil => simp [textAfter, Lexer.run]
  | cons right rest ih =>
    have hfront : textAfter "" left (right :: rest) =
        left.between right ++ right.text ++ textAfter "" right rest := by
      rw [textAfter_cons, String.empty_append, ← textAfter_append, String.append_empty]
    rw [hfront, String.toList_append, String.toList_append, List.append_assoc, run_mode, ih,
      ← List.append_assoc right.done, done_append_finish]
    rfl

/-- The text of marks lexes into their tokens. -/
theorem tokens_textOf (pieces : List Piece) : tokens (textOf pieces) = pieces.map token := by
  cases pieces with
  | nil => rfl
  | cons first rest =>
    have hfront : textAfter first.text first rest = first.text ++ textAfter "" first rest := by
      rw [← textAfter_append, String.append_empty]
    rw [tokens, textOf, hfront, String.toList_append, run_gap, run_textAfter, ← List.append_assoc,
      done_append_finish]
    rfl

end Piece
end NockDispatch.Text
