import NockDispatch.Text.Reader

/-!
# Texts as streams

A stream gives out the nouns of a text one by one. It lexes no further than it has to: a word is
complete once the character behind it was seen, and that character is left where it is. To tell
whether there is more, the stream looks one token ahead, and it holds on to that token until it is
taken.

Reading goes on behind an error with the token after the one that was at fault, whatever brackets
are open there.
-/

namespace NockDispatch.Text

namespace Lexer

/-- The first token that is read from a mode on, and what is left of the text behind it. -/
def pull (mode : Mode) : List Char → Option (Token × List Char)
  | [] => (finish mode).head?.map fun token => (token, [])
  | c :: rest =>
    match step mode c with
    | (mode, []) => pull mode rest
    -- Between tokens it is a bracket that was taken. Anywhere else it is what ends a word.
    | (_, token :: _) => some (token, if mode = .gap then rest else c :: rest)

theorem step_ends_word {mode next : Mode} {c : Char} {token : Token} {more : List Token}
    (hs : step mode c = (next, token :: more)) (hmode : mode ≠ .gap) : start c = (next, more) := by
  cases mode with
  | gap => exact absurd rfl hmode
  | colon =>
    rw [step, next_eq] at hs
    split at hs <;> cases hs
    rfl
  | word sofar | term sofar =>
    rw [step, next_eq] at hs
    split at hs <;> cases hs
    rfl
  | comment =>
    rw [step] at hs
    split at hs <;> cases hs

theorem start_single {c : Char} {next : Mode} {token : Token} {more : List Token}
    (hs : start c = (next, token :: more)) : next = .gap ∧ more = [] := by
  unfold start at hs
  repeat' split at hs
  all_goals cases hs
  all_goals exact ⟨rfl, rfl⟩

/-- To pull tokens one after another is to lex the text. -/
theorem run_eq_pull (mode : Mode) (text : List Char) :
    run mode text =
      match pull mode text with
      | none => []
      | some (token, rest) => token :: run .gap rest := by
  induction text generalizing mode with
  | nil => cases mode <;> rfl
  | cons c rest ih =>
    rw [run_cons, pull]
    generalize hs : step mode c = left
    obtain ⟨next, given⟩ := left
    cases given with
    | nil => exact ih next
    | cons token more =>
      dsimp only
      split
      · next hmode =>
        subst hmode
        obtain ⟨rfl, rfl⟩ := start_single hs
        rfl
      · next hmode =>
        rw [run_cons, step, step_ends_word hs hmode]
        rfl

end Lexer

structure Stream where
  /-- A token that was looked at and is still to be taken. -/
  ahead : Option Token
  rest : List Char

namespace Stream

def of (text : String) : Stream := ⟨none, text.toList⟩

def peek (s : Stream) : Option Token × Stream :=
  match s.ahead with
  | some token => (some token, s)
  | none =>
    match Lexer.pull .gap s.rest with
    | some (token, rest) => (some token, ⟨some token, rest⟩)
    | none => (none, ⟨none, []⟩)

def consume (s : Stream) : Option Token × Stream :=
  match s.ahead with
  | some token => (some token, ⟨none, s.rest⟩)
  | none =>
    match Lexer.pull .gap s.rest with
    | some (token, rest) => (some token, ⟨none, rest⟩)
    | none => (none, ⟨none, []⟩)

def hasMore (s : Stream) : Bool × Stream :=
  let (token, s) := s.peek
  (token.isSome, s)

/-- The tokens that are still to come. -/
def tokens (s : Stream) : List Token := s.ahead.toList ++ Lexer.run .gap s.rest

theorem tokens_of (text : String) : (of text).tokens = Text.tokens text := rfl

theorem peek_eq (s : Stream) : s.peek.1 = s.tokens.head? ∧ s.peek.2.tokens = s.tokens := by
  obtain ⟨_ | token, rest⟩ := s
  · have hrun := Lexer.run_eq_pull .gap rest
    simp only [peek, tokens, Option.toList_none, List.nil_append, hrun]
    cases Lexer.pull .gap rest <;> exact ⟨rfl, rfl⟩
  · exact ⟨rfl, rfl⟩

theorem consume_eq (s : Stream) :
    s.consume.1 = s.tokens.head? ∧ s.consume.2.tokens = s.tokens.tail := by
  obtain ⟨_ | token, rest⟩ := s
  · have hrun := Lexer.run_eq_pull .gap rest
    simp only [consume, tokens, Option.toList_none, List.nil_append, hrun]
    cases Lexer.pull .gap rest <;> exact ⟨rfl, rfl⟩
  · exact ⟨rfl, rfl⟩

theorem tokens_of_consume {s s' : Stream} {token : Token} (hs : s.consume = (some token, s')) :
    s.tokens = token :: s'.tokens := by
  obtain ⟨hhead, htail⟩ := s.consume_eq
  rw [hs] at hhead htail
  cases htokens : s.tokens with
  | nil =>
    rw [htokens] at hhead
    cases hhead
  | cons first more =>
    rw [htokens] at hhead htail
    cases hhead
    exact congrArg (token :: ·) htail.symm

theorem length_tokens_of_consume {s s' : Stream} {token : Token}
    (hs : s.consume = (some token, s')) : s'.tokens.length < s.tokens.length := by
  rw [tokens_of_consume hs]
  exact Nat.lt_succ_self _

theorem hasMore_eq (s : Stream) :
    s.hasMore.1 = s.tokens.head?.isSome ∧ s.hasMore.2.tokens = s.tokens := by
  obtain ⟨hhead, hsame⟩ := s.peek_eq
  exact ⟨congrArg Option.isSome hhead, hsame⟩

theorem exists_tokens_of_hasMore {s s' : Stream} (hs : s.hasMore = (true, s')) :
    ∃ token rest, s.tokens = token :: rest ∧ s'.tokens = token :: rest := by
  obtain ⟨hsome, hsame⟩ := s.hasMore_eq
  rw [hs] at hsome hsame
  cases htokens : s.tokens with
  | nil =>
    rw [htokens] at hsome
    cases hsome
  | cons token rest => exact ⟨token, rest, rfl, hsame.trans htokens⟩

/-- What one reading gives: a noun or an error, the stream that is left, and the graph that holds
all that was stored on the way. -/
structure Reading where
  outcome : Except ReadError NodeId
  stream : Stream
  graph : Graph

def readWithin (g : Graph) (brackets : Reader.Open) (s : Stream) : Reading :=
  match _ : s.consume with
  | (none, s) => ⟨.error .unexpectedEnd, s, g⟩
  | (some token, s) =>
    match Reader.step g brackets token with
    | (.ok (.within brackets), g) => readWithin g brackets s
    | (.ok (.complete id), g) => ⟨.ok id, s, g⟩
    | (.error error, g) => ⟨.error error, s, g⟩
termination_by s.tokens.length
decreasing_by exact length_tokens_of_consume ‹_›

def read (g : Graph) (s : Stream) : Reading :=
  readWithin g [] s

/-- The reading of a stream as one of its tokens. -/
def Reading.ofTokens (reading : Reading) : Reader.Reading :=
  ⟨reading.outcome, reading.stream.tokens, reading.graph⟩

/-- A stream is read as its tokens are. -/
theorem readWithin_eq (g : Graph) (brackets : Reader.Open) (s : Stream) :
    (readWithin g brackets s).ofTokens = Reader.readWithin g brackets s.tokens := by
  induction htokens : s.tokens generalizing g brackets s with
  | nil =>
    obtain ⟨hhead, htail⟩ := s.consume_eq
    rw [htokens] at hhead htail
    unfold readWithin
    split
    · next hs =>
      rw [hs] at htail
      exact congrArg (Reader.Reading.mk _ · g) htail
    · next hs =>
      rw [hs] at hhead
      cases hhead
  | cons token rest ih =>
    obtain ⟨hhead, htail⟩ := s.consume_eq
    rw [htokens] at hhead htail
    unfold readWithin
    split
    · next hs =>
      rw [hs] at hhead
      cases hhead
    · next token' s' hs =>
      rw [hs] at hhead htail
      cases hhead
      rw [Reader.readWithin]
      generalize Reader.step g brackets token = left
      obtain ⟨_ | progress, g'⟩ := left
      · exact congrArg (Reader.Reading.mk _ · g') htail
      · cases progress with
        | complete id => exact congrArg (Reader.Reading.mk _ · g') htail
        | within brackets => exact ih g' brackets s' htail

theorem read_eq (g : Graph) (s : Stream) : (read g s).ofTokens = Reader.read g s.tokens :=
  readWithin_eq g [] s

theorem length_tokens_read_lt (g : Graph) {s s' : Stream} (hs : s.hasMore = (true, s')) :
    (read g s').stream.tokens.length < s.tokens.length := by
  obtain ⟨token, rest, htokens, htokens'⟩ := exists_tokens_of_hasMore hs
  have hlt := Reader.length_rest_read_lt g token rest
  rwa [← htokens', ← read_eq, htokens', ← htokens] at hlt

/-- What the readings of a stream have given, and the stream and the graph that are left. -/
structure Readings where
  outcomes : List (Except ReadError NodeId)
  stream : Stream
  graph : Graph

/-- Read nouns for as long as there is more, going on behind every error. -/
def readAll (g : Graph) (s : Stream) : Readings :=
  match _ : s.hasMore with
  | (false, s) => ⟨[], s, g⟩
  | (true, s) =>
    let reading := read g s
    let more := readAll reading.graph reading.stream
    { more with outcomes := reading.outcome :: more.outcomes }
termination_by s.tokens.length
decreasing_by exact length_tokens_read_lt g ‹_›

end Stream
end NockDispatch.Text
