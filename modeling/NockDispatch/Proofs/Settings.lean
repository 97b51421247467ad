import Mathlib.Data.List.DropRight
import NockDispatch.Proofs.Text.Numeral
import NockDispatch.Settings

/-!
# What variables mean

The text of a variable is a word with blanks around it. The words that are numbers are told here by
their shape, and so are the words of a switch. A setting is what its own variable means; where that
variable is missing, or means nothing, the setting is the standard one, whatever other variables
say.
-/

namespace NockDispatch

namespace Text

variable {text word : List Char} {n : Nat}

/-! ## Words with blanks around them -/

/-- The text is the word, with blanks in front of it and behind it. -/
def Pads (word text : List Char) : Prop :=
  ∃ front back, text = front ++ word ++ back ∧ ∀ c ∈ front ++ back, isBlank c = true

theorem trim_eq (text : List Char) :
    trim text = (text.dropWhile isBlank).rdropWhile isBlank := rfl

theorem pads_trim (text : List Char) : Pads (trim text) text := by
  refine ⟨text.takeWhile isBlank, (text.dropWhile isBlank).rtakeWhile isBlank, ?_, fun c hc => ?_⟩
  · rw [trim_eq, List.append_assoc, List.rdropWhile_append_rtakeWhile,
      List.takeWhile_append_dropWhile]
  · rcases List.mem_append.mp hc with hc | hc
    · exact List.mem_takeWhile_imp hc
    · exact List.mem_rtakeWhile_imp hc

theorem Pads.trim_eq (hp : Pads word text) (hword : ∀ c ∈ word, isBlank c = false) :
    trim text = word := by
  obtain ⟨front, back, rfl, hblank⟩ := hp
  rw [List.forall_mem_append] at hblank
  have hback : ∀ c ∈ back.reverse, isBlank c = true := by simpa using hblank.2
  rw [Text.trim_eq, List.append_assoc, List.dropWhile_append_of_pos hblank.1]
  cases word with
  | nil => rw [List.nil_append, List.dropWhile_eq_nil_iff.mpr hblank.2, List.rdropWhile_nil]
  | cons c rest =>
    have hfirst : (c :: rest ++ back).dropWhile isBlank = c :: rest ++ back := by simp [hword c]
    have hlast : (c :: rest).rdropWhile isBlank = c :: rest := by
      rw [List.rdropWhile_eq_self_iff]
      intro hne
      simp [hword _ (List.getLast_mem hne)]
    rw [hfirst, List.rdropWhile, List.reverse_append, List.dropWhile_append_of_pos hback,
      ← List.rdropWhile, hlast]

/-- What holds of no word with blanks holds of the trimmed text just when it holds of a word with
blanks around it in the text. -/
theorem trim_iff {P : List Char → Prop}
    (hword : ∀ {word}, P word → ∀ c ∈ word, isBlank c = false) :
    P (trim text) ↔ ∃ word, Pads word text ∧ P word := by
  constructor
  · exact fun h => ⟨_, pads_trim text, h⟩
  · rintro ⟨word, hp, h⟩
    rwa [hp.trim_eq (hword h)]

/-! ## Numbers -/

/-- One or more decimal digits, behind a plus sign or not. -/
def IsNumber (word : List Char) (n : Nat) : Prop :=
  ∃ sign digits, word = sign ++ digits ∧ (sign = [] ∨ sign = ['+']) ∧ digits ≠ [] ∧
    Writes 10 digits n

namespace Decimal

theorem digits_eq_some {value : Nat} : digits value text = some n ↔ WritesOn 10 value text n := by
  induction text generalizing value with
  | nil => simp [digits, writesOn_nil]
  | cons c text ih =>
    rw [digits, writesOn_cons]
    simp only [← decimalDigit?_eq_some, ← ih]
    cases decimalDigit? c <;> simp

theorem not_writes_plus : ¬ Writes 10 ('+' :: text) n := by
  rw [writes_iff, writesOn_cons]
  rintro ⟨digit, hdigit, -⟩
  exact hdigit.hexadecimal.ne (by decide) rfl

theorem number?_eq_some : number? word = some n ↔ IsNumber word n := by
  have hplain : number? word = some n ↔
      (word ≠ [] ∧ Writes 10 word n) ∨ ∃ digits, word = '+' :: digits ∧ digits ≠ [] ∧
        Writes 10 digits n := by
    unfold number?
    split
    · simp
    · simp [not_writes_plus]
    · next rest hrest =>
      have hne : rest ≠ [] := hrest
      rw [digits_eq_some, ← writes_iff, or_iff_right fun h => not_writes_plus h.2]
      simp [hne]
    · next hnil _ hplus =>
      rw [digits_eq_some, ← writes_iff, or_iff_left]
      · exact (and_iff_right hnil).symm
      · rintro ⟨digits, rfl, -⟩
        exact hplus _ rfl
  rw [hplain]
  constructor
  · rintro (⟨hne, hw⟩ | ⟨digits, rfl, hne, hw⟩)
    · exact ⟨[], word, rfl, .inl rfl, hne, hw⟩
    · exact ⟨['+'], digits, rfl, .inr rfl, hne, hw⟩
  · rintro ⟨_, digits, rfl, rfl | rfl, hne, hw⟩
    · exact .inl ⟨hne, hw⟩
    · exact .inr ⟨digits, rfl, hne, hw⟩

end Decimal

theorem IsNumber.not_isBlank (hn : IsNumber word n) : ∀ c ∈ word, isBlank c = false := by
  obtain ⟨sign, digits, rfl, hsign, -, hw⟩ := hn
  intro c hc
  have hends : Lexer.endsWord c = false := by
    rcases List.mem_append.mp hc with hc | hc
    · rcases hsign with rfl | rfl
      · simp at hc
      · obtain rfl := List.mem_singleton.mp hc
        decide
    · obtain ⟨digit, hdigit⟩ := (writes_iff.mp hw).forall_isDigit c hc
      exact InNumeral.endsWord_eq (.inr ⟨digit, hdigit.hexadecimal⟩)
  simp only [Lexer.endsWord, Bool.or_eq_false_iff] at hends
  exact hends.1.1

end Text

namespace Settings

open Text

variable {text : String} {n : Nat}

def Number (text : String) (n : Nat) : Prop :=
  ∃ word, Pads word text.toList ∧ IsNumber word n

theorem number?_trim_eq_some : Decimal.number? (trim text.toList) = some n ↔ Number text n := by
  rw [Decimal.number?_eq_some]
  exact trim_iff IsNumber.not_isBlank

def Word (text : String) (n : Nat) : Prop := Number text n ∧ n < 2 ^ 64

def AxisWord (text : String) (n : Nat) : Prop := Word text n ∧ n ≠ 0

theorem word?_eq_some : (word? text).map UInt64.toNat = some n ↔ Word text n := by
  rw [Word, ← number?_trim_eq_some, word?]
  cases Decimal.number? (trim text.toList) with
  | none => simp
  | some value =>
    have hsize : UInt64.size = 2 ^ 64 := rfl
    rw [Option.some_inj]
    dsimp only
    split
    · next hlt =>
      have hvalue : value.toUInt64.toNat = value := UInt64.toNat_ofNat_of_lt' hlt
      rw [Option.map_some, hvalue, Option.some_inj]
      omega
    · next hge =>
      rw [Option.map_none]
      constructor
      · exact nofun
      · omega

example : word? "\t+0500 " = some 500 := by decide

theorem axis?_eq_some : (axis? text).map UInt64.toNat = some n ↔ AxisWord text n := by
  rw [AxisWord, ← word?_eq_some, axis?]
  cases word? text with
  | none => simp
  | some axis =>
    have hzero : axis = 0 ↔ axis.toNat = 0 := UInt64.toNat_inj.symm
    simp only [hzero]
    split <;> simp <;> omega

/-- The words of a switch that is on, and of one that is off. -/
def switchWords : Bool → List String
  | true => ["1", "on", "true", "yes"]
  | false => ["0", "off", "false", "no"]

/-- The text is a word of a switch in any case, with blanks around it. -/
def Switch (text : String) (on : Bool) : Prop :=
  ∃ word, Pads word text.toList ∧ String.ofList (word.map Char.toLower) ∈ switchWords on

theorem toLower_of_isBlank {c : Char} (hc : isBlank c = true) : c.toLower = c := by
  have hletter : ¬ (c.val ≥ 'A'.val ∧ c.val ≤ 'Z'.val) := by
    rintro ⟨hge, hle⟩
    have hlower : 'A'.toNat ≤ c.toNat := hge
    have hupper : c.toNat ≤ 'Z'.toNat := hle
    simp [isBlank, Ranges.covers, blanks] at hc hlower hupper
    omega
  exact dif_neg hletter

theorem not_isBlank_of_mem_switchWords {word : List Char} {on : Bool}
    (hword : String.ofList (word.map Char.toLower) ∈ switchWords on) :
    ∀ c ∈ word, isBlank c = false := by
  have hwords : ∀ on, ∀ word ∈ switchWords on, word.toList.any isBlank = false := by decide
  have hnone := hwords on _ hword
  rw [String.toList_ofList, List.any_map, List.any_eq_false] at hnone
  intro c hc
  by_contra hblank
  rw [Bool.not_eq_false] at hblank
  have hlower := hnone c hc
  rw [Function.comp_apply, toLower_of_isBlank hblank] at hlower
  exact hlower hblank

theorem flag?_eq_some {on : Bool} : flag? text = some on ↔ Switch text on := by
  have hflag : flag? text = some on ↔
      String.ofList ((trim text.toList).map Char.toLower) ∈ switchWords on := by
    have hdisjoint : ∀ word ∈ switchWords true, word ∉ switchWords false := by decide
    rw [flag?]
    generalize String.ofList ((trim text.toList).map Char.toLower) = word
    change (if word ∈ switchWords true then some true
      else if word ∈ switchWords false then some false else none) = some on ↔ _
    split_ifs with htrue hfalse
    · have := hdisjoint word htrue
      cases on <;> simp [*]
    · cases on <;> simp [*]
    · cases on <;> simp [*]
  rw [hflag]
  exact trim_iff not_isBlank_of_mem_switchWords

/-! ## Settings -/

/-- A variable sets a value if its text means one, and leaves the standard one if there is no text
or the text means nothing. -/
structure Sets {α : Type} (text? : Option String) (Means : String → α → Prop) (standard value : α) :
    Prop where
  given : ∀ {text meant}, text? = some text → Means text meant → value = meant
  absent : (∀ text meant, text? = some text → ¬ Means text meant) → value = standard

theorem sets_getD_bind {α : Type} {parse : String → Option α} {Means : String → α → Prop}
    (hparse : ∀ {text meant}, parse text = some meant ↔ Means text meant) (text? : Option String)
    (standard : α) : Sets text? Means standard ((text?.bind parse).getD standard) := by
  constructor
  · rintro text meant rfl hmeant
    rw [Option.bind_some, hparse.mpr hmeant]
    rfl
  · intro hnone
    have hnothing : text?.bind parse = none := by
      rw [Option.bind_eq_none_iff]
      intro text htext
      rw [Option.eq_none_iff_forall_ne_some]
      exact fun meant hmeant => hnone text meant htext (hparse.mp hmeant)
    rw [hnothing]
    rfl

theorem sets_word (text? : Option String) (standard : Nat) :
    Sets text? Word standard (((text?.bind word?).map UInt64.toNat).getD standard) := by
  rw [Option.map_bind]
  exact sets_getD_bind word?_eq_some text? standard

theorem sets_axis (text? : Option String) (standard : UInt64) :
    Sets text? AxisWord standard.toNat ((text?.bind axis?).getD standard).toNat := by
  rw [← Option.getD_map UInt64.toNat, Option.map_bind]
  exact sets_getD_bind axis?_eq_some text? standard.toNat

theorem getD_axis_ne_zero (text? : Option String) {standard : UInt64} (hs : standard ≠ 0) :
    (text?.bind axis?).getD standard ≠ 0 := by
  cases haxis : text?.bind axis? with
  | none => exact hs
  | some axis =>
    obtain ⟨text, -, htext⟩ := Option.bind_eq_some_iff.mp haxis
    exact axis?_ne_zero htext

/-- Every setting is what its own variable means, and the standard one where that variable is
missing or means nothing; it depends on no other variable. A number counts if it is one of decimal
digits behind a plus sign or not, with blanks around it, and fits in a word; as an axis it is not
zero. -/
theorem ofLookup_reads (lookup : String → Option String) :
    (ofLookup lookup).nestArm ≠ 0 ∧ (ofLookup lookup).keyAxis ≠ 0 ∧
    (∀ other : String → Option String,
      (other "NEST_CACHE" = lookup "NEST_CACHE" →
        (ofLookup other).cache = (ofLookup lookup).cache) ∧
      (other "NEST_ARM" = lookup "NEST_ARM" →
        (ofLookup other).nestArm = (ofLookup lookup).nestArm) ∧
      (other "NEST_KEY_AXIS" = lookup "NEST_KEY_AXIS" →
        (ofLookup other).keyAxis = (ofLookup lookup).keyAxis) ∧
      (other "NEST_STEP_LIMIT" = lookup "NEST_STEP_LIMIT" →
        (ofLookup other).limits.steps = (ofLookup lookup).limits.steps) ∧
      (other "NEST_DEPTH_LIMIT" = lookup "NEST_DEPTH_LIMIT" →
        (ofLookup other).limits.depth = (ofLookup lookup).limits.depth)) ∧
    Sets (lookup "NEST_CACHE") Switch standard.cache (ofLookup lookup).cache ∧
    Sets (lookup "NEST_ARM") AxisWord standard.nestArm.toNat (ofLookup lookup).nestArm.toNat ∧
    Sets (lookup "NEST_KEY_AXIS") AxisWord standard.keyAxis.toNat
      (ofLookup lookup).keyAxis.toNat ∧
    Sets (lookup "NEST_STEP_LIMIT") Word standard.limits.steps (ofLookup lookup).limits.steps ∧
    Sets (lookup "NEST_DEPTH_LIMIT") Word standard.limits.depth
      (ofLookup lookup).limits.depth := by
  refine ⟨getD_axis_ne_zero _ (by decide), getD_axis_ne_zero _ (by decide), fun other => ?_,
    sets_getD_bind flag?_eq_some _ _, sets_axis _ _, sets_axis _ _, sets_word _ _, sets_word _ _⟩
  refine ⟨fun heq => ?_, fun heq => ?_, fun heq => ?_, fun heq => ?_, fun heq => ?_⟩
  all_goals
    dsimp only [ofLookup]
    rw [heq]

end Settings
end NockDispatch
