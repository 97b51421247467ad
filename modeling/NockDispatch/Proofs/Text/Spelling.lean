import Mathlib.Data.List.Forall2
import NockDispatch.Proofs.Text.Reading
import NockDispatch.Text.Grammar

/-!
# Reading what is spelled

Behind any open brackets, the reader takes the tokens of a spelling one after another and comes
out with the noun that they spell. On the way it stores the noun with all of its parts, in the
order in which `Graph.put` does, and nothing else.
-/

namespace NockDispatch

namespace Graph

variable {g : Graph}

theorem forall₂_denotes_extend {h : Graph} (hgh : g.Extends h) {ids : List NodeId}
    {nouns : List Noun} (hd : List.Forall₂ g.Denotes ids nouns) :
    List.Forall₂ h.Denotes ids nouns :=
  hd.imp fun _ _ hd => hd.extend hgh

theorem putAll_put_ofElements (wf : g.WellFormed) (first : Noun) (rest : List Noun) :
    (g.putAll (first :: rest)).put (Text.ofElements first rest) =
      g.put (Text.ofElements first rest) := by
  induction rest generalizing g first with
  | nil =>
    obtain ⟨hgrow, hd⟩ := grows_put wf first
    exact put_of_denotes hgrow.wellFormed hd
  | cons next rest ih =>
    obtain ⟨hgrow, hd⟩ := grows_put wf first
    have hall := grows_putAll hgrow.wellFormed (next :: rest)
    rw [Text.ofElements, put_cell, put_cell, putAll_cons,
      put_of_denotes hall.wellFormed (hd.extend hall.extend), ih hgrow.wellFormed]

end Graph

namespace Text

/-! ## Spellings -/

/-- What stands between brackets spells some nouns in a row. -/
def Inside (tokens : List Token) : List Noun → Prop
  | [] => tokens = []
  | first :: rest => Spelling tokens (.row first rest)

theorem Spelling.exists_one {tokens : List Token} {first : Noun}
    (hs : Spelling tokens (.row first [])) : Spells tokens first := by
  cases hs with
  | last hone => exact hone

theorem Spelling.snoc {tokens others : List Token} {first : Noun} {rest : List Noun} {a : Noun}
    (hs : Spelling tokens (.row first rest)) (ha : Spells others a) :
    Spelling (tokens ++ others) (.row first (rest ++ [a])) := by
  generalize hpart : Part.row first rest = part at hs
  induction hs generalizing first rest with
  | atom => cases hpart
  | term => cases hpart
  | bracket => cases hpart
  | last hone =>
    cases hpart
    exact .more hone (.last ha)
  | more hone _ _ ih =>
    cases hpart
    rw [List.append_assoc]
    exact .more hone (ih rfl)

theorem Inside.snoc {tokens others : List Token} {nouns : List Noun} {a : Noun}
    (hi : Inside tokens nouns) (ha : Spells others a) :
    Inside (tokens ++ others) (nouns ++ [a]) := by
  cases nouns with
  | nil =>
    obtain rfl : tokens = [] := hi
    exact .last ha
  | cons first rest => exact Spelling.snoc hi ha

/-- A bracket around two nouns or more is a noun. -/
theorem Inside.exists_bracket {tokens : List Token} {nouns : List Noun} (hi : Inside tokens nouns)
    (htwo : 2 ≤ nouns.length) : ∃ a, Spells (.opening :: tokens ++ [.closing]) a := by
  rcases nouns with _ | ⟨first, _ | ⟨second, rest⟩⟩
  · simp at htwo
  · simp at htwo
  · exact ⟨_, .bracket hi⟩

namespace Reader

/-! ## Storing brackets -/

/-- The elements so far of every open bracket, as nouns. -/
abbrev Pending := List (List Noun)

/-- The open brackets hold the elements that are pending. -/
def Holds (g : Graph) : Open → Pending → Prop := List.Forall₂ (List.Forall₂ g.Denotes)

variable {g : Graph} {brackets : Open} {pending : Pending}

theorem Holds.extend {h : Graph} (hh : Holds g brackets pending) (hgh : g.Extends h) :
    Holds h brackets pending :=
  hh.imp fun _ _ hd => Graph.forall₂_denotes_extend hgh hd

theorem nest_concat (g : Graph) (last element : NodeId) (before : List NodeId) :
    nest g last (before ++ [element]) =
      (nest g last before).2.cell element (nest g last before).1 := by
  induction before generalizing g last with
  | nil => rfl
  | cons other before ih => exact ih _ _

theorem nest_eq_put (wf : g.WellFormed) {ids before : List NodeId} {last : NodeId} {first : Noun}
    {rest : List Noun} (hd : List.Forall₂ g.Denotes ids (first :: rest))
    (hids : ids.reverse = last :: before) :
    nest g last before = g.put (ofElements first rest) := by
  induction rest generalizing ids before first with
  | nil =>
    cases hd with
    | cons hfirst hnil =>
      cases hnil
      cases hids
      exact (Graph.put_of_denotes wf hfirst).symm
  | cons next rest ih =>
    cases hd with
    | @cons id _ ids _ hfirst hrest =>
      obtain ⟨last', before', hlater⟩ : ∃ last' before', ids.reverse = last' :: before' := by
        cases hrest with
        | cons => simp [List.exists_cons_of_ne_nil]
      obtain ⟨rfl, rfl⟩ : last' = last ∧ before' ++ [id] = before := by
        simpa [hlater] using hids
      rw [nest_concat, ih hrest hlater, ofElements, Graph.put_cell,
        Graph.put_of_denotes wf hfirst]

theorem step_closing (wf : g.WellFormed) {elements : List NodeId} {first second : Noun}
    {rest : List Noun} (hd : List.Forall₂ g.Denotes elements.reverse (first :: second :: rest))
    (outer : Open) :
    step g (elements :: outer) .closing =
      (.ok (deliver outer (g.put (ofElements first (second :: rest))).1),
        (g.put (ofElements first (second :: rest))).2) := by
  rcases elements with _ | ⟨last, _ | ⟨other, before⟩⟩
  · cases hd
  · cases hd with
    | cons _ hrest => cases hrest
  · simp only [step, nest_eq_put wf hd (List.reverse_reverse _)]

/-! ## Reading a spelling -/

def resume (g : Graph) (rest : List Token) : Progress → Reading
  | .complete id => ⟨.ok id, rest, g⟩
  | .within brackets => readWithin g brackets rest

theorem readWithin_cons {brackets : Open} {token : Token} {rest : List Token} {h : Graph}
    {progress : Progress} (hs : step g brackets token = (.ok progress, h)) :
    readWithin g brackets (token :: rest) = resume h rest progress := by
  rw [readWithin, hs]
  cases progress <;> rfl

theorem readWithin_cons_error {brackets : Open} {token : Token} {rest : List Token} {h : Graph}
    {e : ReadError} (hs : step g brackets token = (.error e, h)) :
    readWithin g brackets (token :: rest) = ⟨.error e, rest, h⟩ := by
  rw [readWithin, hs]

/-- What it is to read the tokens of some part, behind any brackets and before any other tokens. -/
def Passes (tokens : List Token) : Part → Prop
  | .one a => ∀ ⦃g : Graph⦄, g.WellFormed → ∀ brackets rest,
      readWithin g brackets (tokens ++ rest) =
        resume (g.put a).2 rest (deliver brackets (g.put a).1)
  | .row first others => ∀ ⦃g : Graph⦄, g.WellFormed → ∀ elements outer rest,
      ∃ ids, List.Forall₂ (g.putAll (first :: others)).Denotes ids (first :: others) ∧
        readWithin g (elements :: outer) (tokens ++ rest) =
          readWithin (g.putAll (first :: others)) ((ids.reverse ++ elements) :: outer) rest

theorem passes_bracket {tokens : List Token} {first second : Noun} {others : List Noun}
    (hp : Passes tokens (.row first (second :: others))) :
    Passes (.opening :: tokens ++ [.closing]) (.one (ofElements first (second :: others))) := by
  intro g wf brackets rest
  obtain ⟨ids, hids, hread⟩ := hp wf [] brackets (.closing :: rest)
  have hall := Graph.grows_putAll wf (first :: second :: others)
  rw [← List.reverse_reverse ids] at hids
  have hclose := step_closing hall.wellFormed hids brackets
  rw [Graph.putAll_put_ofElements wf] at hclose
  calc readWithin g brackets (.opening :: tokens ++ [.closing] ++ rest)
      = readWithin g ([] :: brackets) (tokens ++ .closing :: rest) := by
        rw [List.cons_append, List.cons_append, List.append_assoc]
        rfl
    _ = readWithin _ (ids.reverse :: brackets) (.closing :: rest) := by
        rw [hread, List.append_nil]
    _ = _ := readWithin_cons hclose

/-- A spelling is read to its end, and stores its noun. -/
theorem passes_of_spelling {tokens : List Token} {part : Part} (hs : Spelling tokens part) :
    Passes tokens part := by
  induction hs with
  | @atom word value hvalue =>
    intro g wf brackets rest
    apply readWithin_cons
    simp only [step, hvalue]
    rfl
  | term =>
    intro g wf brackets rest
    exact readWithin_cons rfl
  | bracket _ ih => exact passes_bracket ih
  | @last tokens a _ ih =>
    intro g wf elements outer rest
    obtain ⟨hgrow, hd⟩ := Graph.grows_put wf a
    exact ⟨[(g.put a).1], .cons hd .nil, ih wf (elements :: outer) rest⟩
  | @more tokens others a first rest' _ _ ih ih' =>
    intro g wf elements outer rest
    obtain ⟨hgrow, hd⟩ := Graph.grows_put wf a
    obtain ⟨ids, hids, hread⟩ := ih' hgrow.wellFormed ((g.put a).1 :: elements) outer rest
    have hall := Graph.grows_putAll hgrow.wellFormed (first :: rest')
    refine ⟨(g.put a).1 :: ids, .cons (hd.extend hall.extend) hids, ?_⟩
    rw [List.append_assoc, ih wf, List.reverse_cons, List.append_assoc]
    exact hread

theorem read_of_spells (wf : g.WellFormed) {tokens : List Token} {a : Noun} (hs : Spells tokens a)
    (rest : List Token) : read g (tokens ++ rest) = ⟨.ok (g.put a).1, rest, (g.put a).2⟩ :=
  passes_of_spelling hs wf [] rest

end Reader

/-- A text that spells a noun is read as that noun, which is all that is stored. -/
theorem readNoun_of_spells {g : Graph} (wf : g.WellFormed) {text : String} {a : Noun}
    (hs : Spells (tokens text) a) : readNoun g text = (.ok (g.put a).1, (g.put a).2) := by
  have hread := Reader.read_of_spells wf hs []
  rw [List.append_nil] at hread
  rw [readNoun, hread]

end Text
end NockDispatch
