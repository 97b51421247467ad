import NockDispatch.Graph.Basic
import NockDispatch.Text.Literal
import NockDispatch.Text.Token

/-!
# Reading nouns

The reader takes one token at a time and keeps, for every bracket that is open, the elements
that it has so far. An element is stored when its last token is taken. A closing bracket
stores the cells of its bracket, the innermost first, so that `[a b c]` is `[a [b c]]`.

Reading one noun takes tokens up to the end of the noun or to the first token that cannot
continue it, that token included; the tokens after it are left for the next noun.

Brackets may be nested as deep as one likes. The program calls itself for each bracket, and so it
needs a stack that is deep enough for the text.
-/

namespace NockDispatch.Text

/-- Why a text is not one noun. -/
inductive ReadError where
  /-- The text ended inside a noun, or before one. -/
  | unexpectedEnd
  | unexpectedClosing
  | shortCell
  | badAtom (word : String)
  | trailing (token : Token)
deriving DecidableEq, Repr

def ReadError.message : ReadError → String
  | unexpectedEnd => "unexpected end of input"
  | unexpectedClosing => "unexpected ']'"
  | shortCell => "cell needs at least two elements"
  | badAtom word => "bad atom literal '" ++ word ++ "'"
  | trailing token => "trailing input after noun: '" ++ token.describe ++ "'"

namespace Reader

/-- The elements so far of every open bracket: the innermost bracket first, and in each the last
element first. -/
abbrev Open := List (List NodeId)

inductive Progress where
  | complete (id : NodeId)
  | within (brackets : Open)

/-- An element of the innermost open bracket, or the whole noun if there is none. -/
def deliver (brackets : Open) (id : NodeId) : Progress :=
  match brackets with
  | [] => .complete id
  | elements :: outer => .within ((id :: elements) :: outer)

/-- Store the cells of a bracket: its last element, then the elements before it from the last to
the first, each as the head of a cell around what follows it. -/
def nest (g : Graph) (last : NodeId) : List NodeId → NodeId × Graph
  | [] => (last, g)
  | element :: before =>
    let (cell, g) := g.cell element last
    nest g cell before

def step (g : Graph) (brackets : Open) : Token → Except ReadError Progress × Graph
  | .opening => (.ok (.within ([] :: brackets)), g)
  | .closing =>
    match brackets with
    | [] => (.error .unexpectedClosing, g)
    | (last :: second :: before) :: outer =>
      let (id, g) := nest g last (second :: before)
      (.ok (deliver outer id), g)
    | _ :: _ => (.error .shortCell, g)
  | .atom word =>
    match literal? word with
    | some value =>
      let (id, g) := g.atom value
      (.ok (deliver brackets id), g)
    | none => (.error (.badAtom word), g)
  | .term word =>
    let (id, g) := g.cord word
    (.ok (deliver brackets id), g)

/-- What one reading gives: a noun or an error, the tokens left over, and the graph that holds all
that was stored on the way. -/
structure Reading where
  outcome : Except ReadError NodeId
  rest : List Token
  graph : Graph

def readWithin (g : Graph) (brackets : Open) : List Token → Reading
  | [] => ⟨.error .unexpectedEnd, [], g⟩
  | token :: rest =>
    match step g brackets token with
    | (.ok (.within brackets), g) => readWithin g brackets rest
    | (.ok (.complete id), g) => ⟨.ok id, rest, g⟩
    | (.error error, g) => ⟨.error error, rest, g⟩

def read (g : Graph) (tokens : List Token) : Reading :=
  readWithin g [] tokens

theorem length_rest_readWithin (g : Graph) (brackets : Open) (tokens : List Token) :
    (readWithin g brackets tokens).rest.length ≤ tokens.length - 1 := by
  induction tokens generalizing g brackets with
  | nil => simp [readWithin]
  | cons token rest ih =>
    unfold readWithin
    split
    · next brackets' g' _ =>
      have := ih g' brackets'
      simp only [List.length_cons]
      omega
    · simp
    · simp

theorem length_rest_read_lt (g : Graph) (token : Token) (rest : List Token) :
    (read g (token :: rest)).rest.length < (token :: rest).length := by
  have := length_rest_readWithin g [] (token :: rest)
  simp only [read, List.length_cons] at this ⊢
  omega

/-- Read nouns for as long as there are tokens, going on behind every error. -/
def readAll (g : Graph) (tokens : List Token) : List (Except ReadError NodeId) × Graph :=
  match tokens with
  | [] => ([], g)
  | token :: more =>
    let reading := read g (token :: more)
    let (outcomes, g) := readAll reading.graph reading.rest
    (reading.outcome :: outcomes, g)
termination_by tokens.length
decreasing_by exact length_rest_read_lt g token more

end Reader

/-- Read a text that is exactly one noun. -/
def readNoun (g : Graph) (text : String) : Except ReadError NodeId × Graph :=
  match Reader.read g (tokens text) with
  | ⟨.ok id, [], g⟩ => (.ok id, g)
  | ⟨.ok _, token :: _, g⟩ => (.error (.trailing token), g)
  | ⟨.error error, _, g⟩ => (.error error, g)

end NockDispatch.Text
