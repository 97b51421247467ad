import NockDispatch.Proofs.Text.Schedule

/-!
# Layout

A text gives some tokens that no later text can change, and leaves the lexer in the middle of
something; what follows is lexed from there. Behind a newline that is always a gap. Behind any
other blank, or a bracket, it is a gap or the inside of a comment, and from either of them a
comment up to the end of its line gives nothing. So texts can be put on lines of their own and
commented without a change of what they spell.
-/

namespace NockDispatch.Text

namespace Lexer

variable {mode : Mode} {c : Char} {text rest : List Char}

/-- What the lexer is in the middle of behind a text. -/
def after (mode : Mode) (text : List Char) : Mode :=
  text.foldl (fun mode c => (step mode c).1) mode

/-- What a text gives whatever follows it. -/
def given (mode : Mode) : List Char → List Token
  | [] => []
  | c :: rest => (step mode c).2 ++ given (step mode c).1 rest

theorem after_concat (mode : Mode) (text : List Char) (c : Char) :
    after mode (text ++ [c]) = (step (after mode text) c).1 := by
  rw [after, List.foldl_concat, after]

theorem run_append (mode : Mode) (text rest : List Char) :
    run mode (text ++ rest) = given mode text ++ run (after mode text) rest := by
  induction text generalizing mode with
  | nil => rfl
  | cons c text ih =>
    rw [List.cons_append, run_cons, ih, given, List.append_assoc]
    rfl

theorem run_eq_given (mode : Mode) (text : List Char) :
    run mode text = given mode text ++ finish (after mode text) := by
  have happend := run_append mode text []
  rwa [List.append_nil] at happend

/-- No token has begun. -/
def Mode.Idle (mode : Mode) : Prop := mode = .gap ∨ mode = .comment

theorem Mode.Idle.finish_eq (hmode : mode.Idle) : finish mode = [] := by
  rcases hmode with rfl | rfl <;> rfl

theorem start_of_endsWord (hc : endsWord c = true) : (start c).1 = .gap := by
  simp only [endsWord, Bool.or_eq_true, beq_iff_eq] at hc
  rcases hc with (hblank | rfl) | rfl
  · rw [start, if_pos hblank]
  · rfl
  · rfl

theorem idle_step (mode : Mode) (hc : endsWord c = true) : (step mode c).1.Idle := by
  have hstart := start_of_endsWord hc
  cases mode with
  | gap => exact .inl hstart
  | colon =>
    have hcolon : c ≠ ':' := by
      rintro rfl
      revert hc
      decide
    rw [step, if_neg hcolon]
    exact .inl hstart
  | word sofar | term sofar =>
    rw [step, if_pos hc]
    exact .inl hstart
  | comment =>
    rw [step]
    split
    · exact .inl rfl
    · exact .inr rfl

theorem idle_after (hend : ∀ c ∈ text.getLast?, endsWord c = true) : (after .gap text).Idle := by
  rcases List.eq_nil_or_concat text with rfl | ⟨before, c, rfl⟩
  · exact .inl rfl
  · rw [List.concat_eq_append] at hend ⊢
    rw [after_concat]
    exact idle_step _ (hend c (by simp))

theorem run_comment (htext : '\n' ∉ text) (hrest : ∀ c ∈ rest.head?, c = '\n') :
    run .comment (text ++ rest) = run .gap rest := by
  induction text with
  | nil =>
    cases rest with
    | nil => rfl
    | cons c rest =>
      obtain rfl := hrest c rfl
      rfl
  | cons c text ih =>
    rw [List.mem_cons, not_or] at htext
    rw [List.cons_append, run_cons, step, if_neg (Ne.symm htext.1)]
    exact ih htext.2

theorem run_of_idle (hmode : mode.Idle) (htext : '\n' ∉ text)
    (hrest : ∀ c ∈ rest.head?, c = '\n') :
    run mode (':' :: ':' :: text ++ rest) = run .gap rest := by
  rcases hmode with rfl | rfl
  · exact run_comment htext hrest
  · have hcolons : '\n' ∉ ':' :: ':' :: text := by simpa using htext
    exact run_comment hcolons hrest

end Lexer

/-! ## Texts -/

/-- The text is empty, or a blank or a bracket stands at its end. -/
def EndsApart (text : String) : Prop := ∀ c ∈ text.toList.getLast?, Lexer.endsWord c = true

/-- The text is empty, or begins with a newline. -/
def BeginsLine (text : String) : Prop := ∀ c ∈ text.toList.head?, c = '\n'

theorem tokens_newline (s t : String) : tokens (s ++ "\n" ++ t) = tokens s ++ tokens t := by
  have hlist : (s ++ "\n" ++ t).toList = s.toList ++ '\n' :: t.toList := by simp
  rw [tokens, hlist, Lexer.run_newline]
  rfl

theorem tokens_comment {s comment t : String} (hs : EndsApart s) (hcomment : '\n' ∉ comment.toList)
    (ht : BeginsLine t) : tokens (s ++ "::" ++ comment ++ t) = tokens s ++ tokens t := by
  have hlist : (s ++ "::" ++ comment ++ t).toList =
      s.toList ++ (':' :: ':' :: comment.toList ++ t.toList) := by simp
  have hidle := Lexer.idle_after hs
  rw [tokens, hlist, Lexer.run_append, Lexer.run_of_idle hidle hcomment ht, tokens,
    Lexer.run_eq_given .gap s.toList, hidle.finish_eq, List.append_nil]
  rfl

/-- A bracket around texts, with a newline behind each of them. -/
def bracketLines (texts : List String) : String :=
  "[" ++ String.join (texts.map (· ++ "\n")) ++ "]"

theorem run_lines (texts : List String) (more : List Char) :
    Lexer.run .gap ((String.join (texts.map (· ++ "\n"))).toList ++ more) =
      (texts.map tokens).flatten ++ Lexer.run .gap more := by
  induction texts with
  | nil => rfl
  | cons text texts ih =>
    have hlist : (String.join ((text :: texts).map (· ++ "\n"))).toList ++ more =
        text.toList ++ '\n' :: ((String.join (texts.map (· ++ "\n"))).toList ++ more) := by
      simp
    rw [hlist, Lexer.run_newline, ih, List.map_cons, List.flatten_cons, List.append_assoc]
    rfl

theorem tokens_bracketLines (texts : List String) :
    tokens (bracketLines texts) = .opening :: (texts.map tokens).flatten ++ [.closing] := by
  have hlist : (bracketLines texts).toList =
      '[' :: ((String.join (texts.map (· ++ "\n"))).toList ++ [']']) := by simp [bracketLines]
  have hopening : Lexer.step .gap '[' = (.gap, [.opening]) := by decide
  rw [tokens, hlist, Lexer.run_cons, hopening, run_lines]
  rfl

theorem Spelling.of_forall₂ {parts : List (List Token)} {first : Noun} {rest : List Noun}
    (hs : List.Forall₂ Spells parts (first :: rest)) :
    Spelling parts.flatten (.row first rest) := by
  induction rest generalizing parts first with
  | nil =>
    cases hs with
    | cons hfirst hnil =>
      cases hnil
      simpa using Spelling.last hfirst
  | cons next rest ih =>
    cases hs with
    | cons hfirst hrest => exact .more hfirst (ih hrest)

theorem spells_bracketLines {texts : List String} {first second : Noun} {rest : List Noun}
    (ht : List.Forall₂ ReadsAs texts (first :: second :: rest)) :
    Spells (tokens (bracketLines texts)) (ofElements first (second :: rest)) := by
  have hs : List.Forall₂ Spells (texts.map tokens) (first :: second :: rest) :=
    List.forall₂_map_left_iff.mpr (ht.imp fun _ _ => readsAs_iff.mp)
  rw [tokens_bracketLines]
  exact .bracket (.of_forall₂ hs)

/-- The tokens of two texts on lines of their own are those of the one and then those of the other.
A comment gives none, whatever is in it, up to the end of its line and behind all that can end a
word. So texts of two nouns or more, each on a line of its own, are read between brackets as the
nouns in a row. -/
theorem layout_composes :
    (∀ s t : String, tokens (s ++ "\n" ++ t) = tokens s ++ tokens t) ∧
    (∀ s comment t : String, EndsApart s → '\n' ∉ comment.toList → BeginsLine t →
      tokens (s ++ "::" ++ comment ++ t) = tokens s ++ tokens t) ∧
    ∀ (texts : List String) (first second : Noun) (rest : List Noun),
      List.Forall₂ ReadsAs texts (first :: second :: rest) → ∀ g : Graph, g.WellFormed →
        ∃ id, (readNoun g (bracketLines texts)).1 = .ok id ∧
          (readNoun g (bracketLines texts)).2.Denotes id (ofElements first (second :: rest)) := by
  refine ⟨tokens_newline, fun s comment t => tokens_comment, ?_⟩
  intro texts first second rest ht g wf
  rw [readNoun_of_spells wf (spells_bracketLines ht)]
  exact ⟨_, rfl, (Graph.grows_put wf _).2⟩

/-- A comment with brackets in it behind a comment that has not ended, and a pair of which each half
has one: `[1 2]` and `3` are read as `[[1 2] 3]`. -/
theorem layout_composes_commented :
    tokens ("[1 ::a " ++ "::" ++ " ] :: [" ++ "\n2]") = [.opening, .atom "1", .atom "2", .closing] ∧
    ∃ id, (readNoun (.empty ⟨0⟩) (bracketLines ["[1 2] ::one", "3 :: [two"])).1 = .ok id ∧
      (readNoun (.empty ⟨0⟩) (bracketLines ["[1 2] ::one", "3 :: [two"])).2.Denotes id
        (.cell (.cell (.atom 1) (.atom 2)) (.atom 3)) := by
  obtain ⟨-, hcomment, hbracket⟩ := layout_composes
  have hpair : Spells (tokens "[1 2] ::one") (.cell (.atom 1) (.atom 2)) := by
    have hinside : Spelling [.atom "1", .atom "2"] (.row (.atom 1) [.atom 2]) :=
      .more (.atom (by rfl)) (.last (.atom (by rfl)))
    exact .bracket hinside
  have hthree : Spells (tokens "3 :: [two") (.atom 3) := .atom (by rfl)
  have hends : EndsApart "[1 ::a " := by
    rintro c ⟨⟩
    decide
  have hline : BeginsLine "\n2]" := by
    rintro c ⟨⟩
    rfl
  constructor
  · rw [hcomment "[1 ::a " " ] :: [" "\n2]" hends (by decide) hline]
    rfl
  · exact hbracket _ (.cell (.atom 1) (.atom 2)) (.atom 3) []
      (.cons (readsAs_iff.mpr hpair) (.cons (readsAs_iff.mpr hthree) .nil)) _
      (Graph.wellFormed_empty ⟨0⟩)

end NockDispatch.Text
