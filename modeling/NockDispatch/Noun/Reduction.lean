import NockDispatch.Noun.Basic

/-!
# Nock

`Reduces a f p` says that `*[a f]` is `p` by the published rules of Nock 4K. A formula that
has no product, be it that no rule applies or that the rules never come to an end, is
related to nothing.

The rules for the opcodes 6 to 11 are written out as the definition has them: each says
which other formulas its own reduces to.
-/

namespace NockDispatch.Noun

def triple (a b c : Noun) : Noun := cell a (cell b c)

def quadruple (a b c d : Noun) : Noun := cell a (triple b c d)

/-- The loobean that answers a question: 0 is yes and 1 is no. -/
def loobean (yes : Bool) : Noun := atom (if yes then 0 else 1)

def isCell : Noun → Bool
  | cell _ _ => true
  | atom _ => false

/-- The product of a formula on a subject. -/
inductive Reduces : Noun → Noun → Noun → Prop
  /-- `*[a [b c] d]` is `[*[a b c] *[a d]]`. -/
  | autocons {a b c d p q} : Reduces a (cell b c) p → Reduces a d q →
      Reduces a (cell (cell b c) d) (cell p q)
  /-- `*[a 0 b]` is `/[b a]`. -/
  | slot {a n p} : Slot n a p → Reduces a (cell (atom 0) (atom n)) p
  /-- `*[a 1 b]` is `b`. -/
  | quote {a b} : Reduces a (cell (atom 1) b) b
  /-- `*[a 2 b c]` is `*[*[a b] *[a c]]`. -/
  | eval {a b c s f p} : Reduces a b s → Reduces a c f → Reduces s f p →
      Reduces a (triple (atom 2) b c) p
  /-- `*[a 3 b]` is `?*[a b]`. -/
  | isCell {a b p} : Reduces a b p → Reduces a (cell (atom 3) b) (loobean p.isCell)
  /-- `*[a 4 b]` is `+*[a b]`. -/
  | increment {a b n} : Reduces a b (atom n) → Reduces a (cell (atom 4) b) (atom (n + 1))
  /-- `*[a 5 b c]` is `=[*[a b] *[a c]]`. -/
  | same {a b c p q} : Reduces a b p → Reduces a c q →
      Reduces a (triple (atom 5) b c) (loobean (p = q))
  /-- `*[a 6 b c d]` is `*[a *[[c d] 0 *[[2 3] 0 *[a 4 4 b]]]]`. -/
  | branch {a b c d i j f p} :
      Reduces a (cell (atom 4) (cell (atom 4) b)) i →
      Reduces (cell (atom 2) (atom 3)) (cell (atom 0) i) j →
      Reduces (cell c d) (cell (atom 0) j) f →
      Reduces a f p →
      Reduces a (quadruple (atom 6) b c d) p
  /-- `*[a 7 b c]` is `*[*[a b] c]`. -/
  | compose {a b c s p} : Reduces a b s → Reduces s c p → Reduces a (triple (atom 7) b c) p
  /-- `*[a 8 b c]` is `*[[*[a b] a] c]`. -/
  | push {a b c s p} : Reduces a b s → Reduces (cell s a) c p →
      Reduces a (triple (atom 8) b c) p
  /-- `*[a 9 b c]` is `*[*[a c] 2 [0 1] 0 b]`. -/
  | pull {a b c core p} : Reduces a c core →
      Reduces core (triple (atom 2) (cell (atom 0) (atom 1)) (cell (atom 0) b)) p →
      Reduces a (triple (atom 9) b c) p
  /-- `*[a 10 [b c] d]` is `#[b *[a c] *[a d]]`. -/
  | edit {a n c d value target p} : Reduces a c value → Reduces a d target →
      Edit n value target p →
      Reduces a (triple (atom 10) (cell (atom n) c) d) p
  /-- `*[a 11 [b c] d]` is `*[[*[a c] *[a d]] 0 3]`. -/
  | dynamicHint {a b c d clue q p} : Reduces a c clue → Reduces a d q →
      Reduces (cell clue q) (cell (atom 0) (atom 3)) p →
      Reduces a (triple (atom 11) (cell b c) d) p
  /-- `*[a 11 b c]` is `*[a c]`, for an atom `b`. -/
  | staticHint {a n c p} : Reduces a c p → Reduces a (triple (atom 11) (atom n) c) p

end NockDispatch.Noun
