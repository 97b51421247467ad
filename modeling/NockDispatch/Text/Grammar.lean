import NockDispatch.Graph.Basic
import NockDispatch.Noun.Basic
import NockDispatch.Text.Literal
import NockDispatch.Text.Token

/-!
# The grammar of noun text

A noun is spelled by a good atom word, by a term, or by a bracket around at least two nouns.
`Spells` relates token sequences to the nouns they spell, without reading them.
-/

namespace NockDispatch.Text

/-- The noun of a bracket: the last element, and in front of it each of the elements before. -/
def ofElements (first : Noun) : List Noun → Noun
  | [] => first
  | next :: rest => .cell first (ofElements next rest)

/-- What a run of tokens is a spelling of. -/
inductive Part where
  | one (noun : Noun)
  | row (first : Noun) (rest : List Noun)

/-- The tokens of a noun, or of the inside of a bracket. -/
inductive Spelling : List Token → Part → Prop
  | atom {word value} : literal? word = some value →
      Spelling [.atom word] (.one (.atom value))
  | term {word} : Spelling [.term word] (.one (.atom (Graph.ofBytes word.toUTF8.toList)))
  | bracket {tokens first second rest} : Spelling tokens (.row first (second :: rest)) →
      Spelling (.opening :: tokens ++ [.closing]) (.one (ofElements first (second :: rest)))
  | last {tokens noun} : Spelling tokens (.one noun) → Spelling tokens (.row noun [])
  | more {tokens others noun first rest} : Spelling tokens (.one noun) →
      Spelling others (.row first rest) →
      Spelling (tokens ++ others) (.row noun (first :: rest))

def Spells (tokens : List Token) (noun : Noun) : Prop := Spelling tokens (.one noun)

theorem Spelling.ne_nil {tokens : List Token} {part : Part} (spelling : Spelling tokens part) :
    tokens ≠ [] := by
  induction spelling <;> simp_all

end NockDispatch.Text
