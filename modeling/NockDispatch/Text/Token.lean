import NockDispatch.Text.Quoted

/-!
# Tokens of noun text

Brackets stand for themselves. Between blanks and brackets stand words: a word that begins
with a percent sign is a term, and any other is an atom, good or bad. Where a word could
begin, two colons begin a comment that runs to the end of the line instead; a single colon
there is a word of its own.

The lexer is a machine that takes one character at a time. Its mode says what it is in the
middle of, and at the end of the text the mode says what is still to come.
-/

namespace NockDispatch.Text

inductive Token where
  | opening
  | closing
  | atom (word : String)
  /-- What follows the percent sign of a term. -/
  | term (word : String)
deriving DecidableEq, Repr

/-- A token as error messages show it. -/
def Token.describe : Token → String
  | opening => "LBrack"
  | closing => "RBrack"
  | atom word => "Atom(" ++ quoted word ++ ")"
  | term word => "Term(" ++ quoted word ++ ")"

namespace Lexer

/-- What the lexer is in the middle of. -/
inductive Mode where
  | gap
  /-- After a colon where a word could begin. -/
  | colon
  | word (sofar : String)
  | term (sofar : String)
  | comment
deriving DecidableEq, Repr

/-- Words end at blanks and brackets. -/
def endsWord (c : Char) : Bool :=
  isBlank c || c == '[' || c == ']'

def start (c : Char) : Mode × List Token :=
  if isBlank c then (.gap, [])
  else if c = '[' then (.gap, [.opening])
  else if c = ']' then (.gap, [.closing])
  else if c = ':' then (.colon, [])
  else if c = '%' then (.term "", [])
  else (.word (String.singleton c), [])

/-- End a token, and take the character after it. -/
def next (token : Token) (c : Char) : Mode × List Token :=
  let (mode, tokens) := start c
  (mode, token :: tokens)

def step : Mode → Char → Mode × List Token
  | .gap, c => start c
  | .colon, c => if c = ':' then (.comment, []) else next (.atom ":") c
  | .word sofar, c =>
    if endsWord c then next (.atom sofar) c else (.word (sofar.push c), [])
  | .term sofar, c =>
    if endsWord c then next (.term sofar) c else (.term (sofar.push c), [])
  | .comment, c => if c = '\n' then (.gap, []) else (.comment, [])

/-- What a mode leaves at the end of the text. -/
def finish : Mode → List Token
  | .gap => []
  | .colon => [.atom ":"]
  | .word sofar => [.atom sofar]
  | .term sofar => [.term sofar]
  | .comment => []

def run (mode : Mode) : List Char → List Token
  | [] => finish mode
  | c :: rest =>
    let (mode, tokens) := step mode c
    tokens ++ run mode rest

end Lexer

def tokens (text : String) : List Token :=
  Lexer.run .gap text.toList

namespace Lexer

theorem next_eq (token : Token) (c : Char) :
    next token c = ((start c).1, token :: (start c).2) := rfl

theorem run_cons (mode : Mode) (c : Char) (rest : List Char) :
    run mode (c :: rest) = (step mode c).2 ++ run (step mode c).1 rest := rfl

/-- Whatever it is in the middle of, a newline brings the lexer to a gap and gives just what the
end of the text would have given. -/
theorem step_newline (mode : Mode) : step mode '\n' = (.gap, finish mode) := by
  have blank : start '\n' = (.gap, []) := by decide
  have ends : endsWord '\n' = true := by decide
  cases mode <;> simp [step, next_eq, blank, ends, finish]

end Lexer
end NockDispatch.Text
