import NockDispatch.Proofs.Graph.Edit
import NockDispatch.Proofs.Text.Marks
import NockDispatch.Proofs.Text.Spelling

/-!
# Reading what is written

Unless it has too many elements, a noun is written whole: the printer's limits never cut it, and
the marks depend on nothing but the noun. The tokens of these marks spell the noun, so every graph
reads it back from its text, and texts are equal where nouns are.
-/

namespace NockDispatch.Text

namespace Piece

mutual

/-- The marks of a noun that is written whole. -/
def whole : Noun → List Piece
  | .atom value => [.atom value]
  | .cell head tail => .opening :: (whole head ++ wholeTail tail) ++ [.closing]

/-- The marks of the elements along the tails of a noun, without a bracket around them. -/
def wholeTail : Noun → List Piece
  | .atom value => [.atom value]
  | .cell head tail => whole head ++ wholeTail tail

end

theorem whole_cell (a b : Noun) :
    whole (.cell a b) = .opening :: wholeTail (.cell a b) ++ [.closing] := rfl

theorem wholeTail_cell (a b : Noun) : wholeTail (.cell a b) = whole a ++ wholeTail b := rfl

/-- How many elements there are among marks: each atom is one, and so is each bracket. -/
def elementCount (pieces : List Piece) : Nat := pieces.countP (· != .closing)

@[simp] theorem elementCount_append (left right : List Piece) :
    elementCount (left ++ right) = elementCount left + elementCount right := List.countP_append

theorem elementCount_whole_cell (a b : Noun) :
    elementCount (whole (.cell a b)) = elementCount (wholeTail (.cell a b)) + 1 := by
  rw [whole_cell, List.cons_append]
  simp [elementCount]

/-! ## Spellings -/

/-- The tokens of a noun spell it, and those of its tail spell the elements along it. -/
theorem spells_whole (a : Noun) :
    Spells ((whole a).map token) a ∧
      ∃ first rest, Spelling ((wholeTail a).map token) (.row first rest) ∧
        ofElements first rest = a := by
  induction a with
  | atom value =>
    have hs : Spells [.atom (toString value)] (.atom value) := .atom (literal?_toString value)
    exact ⟨hs, .atom value, [], .last hs, rfl⟩
  | cell a b iha ihb =>
    obtain ⟨ha, -⟩ := iha
    obtain ⟨-, first, rest, hb, hrest⟩ := ihb
    have hrow : Spelling ((wholeTail (.cell a b)).map token) (.row a (first :: rest)) := by
      rw [wholeTail_cell, List.map_append]
      exact .more ha hb
    have hcell : ofElements a (first :: rest) = .cell a b := by rw [ofElements, hrest]
    refine ⟨?_, a, first :: rest, hrow, hcell⟩
    have hbracket : Spells (.opening :: (wholeTail (.cell a b)).map token ++ [.closing])
        (ofElements a (first :: rest)) := .bracket hrow
    rw [hcell] at hbracket
    simpa [whole_cell, token] using hbracket

theorem spells_textOf_whole (a : Noun) : Spells (tokens (textOf (whole a))) a := by
  rw [tokens_textOf]
  exact (spells_whole a).1

end Piece

namespace Printer

open Piece

/-- A page after some marks with all their elements. -/
def Page.write (page : Page) (pieces : List Piece) : Page :=
  ⟨pieces.reverse ++ page.marks, page.budget - elementCount pieces⟩

theorem Page.write_write (page : Page) (left right : List Piece) :
    (page.write left).write right = page.write (left ++ right) := by
  simp [Page.write, Nat.sub_sub]

variable {g : Graph} {id : NodeId} {page : Page} {levels : Nat}

theorem elements_atom {value : Nat} (hd : g.Denotes id (.atom value)) : elements g id = [id] := by
  rw [elements, hd.cell?_atom]

theorem elements_cell (wf : g.WellFormed) {a b : Noun} (hd : g.Denotes id (.cell a b)) :
    ∃ head tail, elements g id = head :: elements g tail ∧ g.Denotes head a ∧
      g.Denotes tail b := by
  obtain ⟨head, tail, hn, ha, hb⟩ := hd.exists_cell
  refine ⟨head, tail, ?_, ha, hb⟩
  rw [elements, Graph.cell?, hn]
  exact if_pos (wf.descends hn).2

/-- With levels and budget enough for all elements, a noun is written whole. -/
theorem element_eq_write (wf : g.WellFormed) (a : Noun) :
    (∀ {id levels page}, g.Denotes id a → elementCount (whole a) ≤ levels →
      elementCount (whole a) ≤ page.budget → element g levels page id = page.write (whole a)) ∧
    ∀ {id levels page}, g.Denotes id a → elementCount (wholeTail a) ≤ levels →
      elementCount (wholeTail a) ≤ page.budget →
      (elements g id).foldl (fun page id => element g levels page id) page =
        page.write (wholeTail a) := by
  induction a with
  | atom value =>
    have hone : ∀ {id levels page}, g.Denotes id (.atom value) → 1 ≤ levels → 1 ≤ page.budget →
        element g levels page id = page.write [.atom value] := by
      intro id levels page hd hlevels hbudget
      obtain ⟨levels, rfl⟩ := Nat.exists_eq_add_of_le' hlevels
      obtain ⟨marks, budget⟩ := page
      obtain ⟨budget, rfl⟩ := Nat.exists_eq_add_of_le' hbudget
      rw [element]
      simp only [hd.node?_atom]
      rfl
    refine ⟨hone, fun hd hlevels hbudget => ?_⟩
    rw [elements_atom hd]
    exact hone hd hlevels hbudget
  | cell a b iha ihb =>
    have hrow : ∀ {id levels page}, g.Denotes id (.cell a b) →
        elementCount (wholeTail (.cell a b)) ≤ levels →
        elementCount (wholeTail (.cell a b)) ≤ page.budget →
        (elements g id).foldl (fun page id => element g levels page id) page =
          page.write (wholeTail (.cell a b)) := by
      intro id levels page hd hlevels hbudget
      obtain ⟨head, tail, helements, ha, hb⟩ := elements_cell wf hd
      rw [wholeTail_cell, elementCount_append] at hlevels hbudget
      rw [helements, List.foldl_cons, iha.1 ha (by omega) (by omega),
        ihb.2 hb (by omega) (by simp only [Page.write]; omega), Page.write_write, wholeTail_cell]
    refine ⟨fun {id levels page} hd hlevels hbudget => ?_, hrow⟩
    rw [elementCount_whole_cell] at hlevels hbudget
    obtain ⟨levels, rfl⟩ := Nat.exists_eq_add_of_le' (Nat.le_of_add_left_le hlevels)
    obtain ⟨marks, budget⟩ := page
    obtain ⟨budget, rfl⟩ := Nat.exists_eq_add_of_le' (Nat.le_of_add_left_le hbudget)
    obtain ⟨head, tail, hn, -, -⟩ := hd.exists_cell
    rw [element]
    simp only [hn]
    rw [hrow hd (Nat.le_of_succ_le_succ hlevels) (Nat.le_of_succ_le_succ hbudget)]
    simp [Page.mark, Page.write, whole_cell, elementCount]

end Printer

variable {g : Graph} {n : NodeId} {a : Noun}

theorem write_eq (wf : g.WellFormed) (hd : g.Denotes n a)
    (hsize : Piece.elementCount (Piece.whole a) < UInt64.size) :
    write g n = Piece.textOf (Piece.whole a) := by
  rw [write, Printer.marks, (Printer.element_eq_write wf a).1 hd (Nat.le_of_lt hsize)
    (Nat.le_sub_one_of_lt hsize)]
  simp [Printer.Page.write]

example : Piece.textOf (Piece.whole (.cell (.cell (.atom 1) (.atom 2))
    (.cell (.atom 3) (.atom 40)))) = "[[1 2] 3 40]" := by decide

theorem readNoun_textOf_whole (wf : g.WellFormed) (a : Noun) :
    readNoun g (Piece.textOf (Piece.whole a)) = (.ok (g.put a).1, (g.put a).2) :=
  readNoun_of_spells wf (Piece.spells_textOf_whole a)

theorem textOf_whole_injective {b : Noun}
    (heq : Piece.textOf (Piece.whole a) = Piece.textOf (Piece.whole b)) : a = b := by
  have wf := Graph.wellFormed_empty ⟨0⟩
  have hread := readNoun_textOf_whole wf a
  rw [heq, readNoun_textOf_whole wf b] at hread
  obtain ⟨hid, hgraph⟩ := Prod.mk.inj hread
  have hd := (Graph.grows_put wf a).2
  rw [← hgraph, ← Except.ok.inj hid] at hd
  exact hd.functional (Graph.grows_put wf b).2

/-- A noun that is written whole is read back from its text by every graph, and the graph that it
was written from finds the same id and stores nothing. Texts are equal where nouns are. -/
theorem readNoun_write (wf : g.WellFormed) (hd : g.Denotes n a)
    (hsize : Piece.elementCount (Piece.whole a) < UInt64.size) :
    (∀ h : Graph, h.WellFormed → ∃ id, (readNoun h (write g n)).1 = .ok id ∧
      (readNoun h (write g n)).2.Denotes id a) ∧
    readNoun g (write g n) = (.ok n, g) ∧
    ∀ (g' : Graph) (n' : NodeId) (a' : Noun), g'.WellFormed → g'.Denotes n' a' →
      Piece.elementCount (Piece.whole a') < UInt64.size →
      (write g n = write g' n' ↔ a = a') := by
  rw [write_eq wf hd hsize]
  refine ⟨fun h wf' => ?_, ?_, fun g' n' a' wf' hd' hsize' => ?_⟩
  · rw [readNoun_textOf_whole wf' a]
    exact ⟨_, rfl, (Graph.grows_put wf' a).2⟩
  · rw [readNoun_textOf_whole wf a, Graph.put_of_denotes wf hd]
  · rw [write_eq wf' hd' hsize']
    exact ⟨textOf_whole_injective, fun heq => by rw [heq]⟩

/-- A noun with brackets in heads and tails, written in a graph that holds it and nothing else. -/
theorem readNoun_write_nested :
    let a : Noun := .cell (.cell (.atom 1) (.atom 2)) (.cell (.atom 3) (.atom 40))
    let g := ((Graph.empty ⟨0⟩).put a).2
    let n := ((Graph.empty ⟨0⟩).put a).1
    Piece.elementCount (Piece.whole a) < UInt64.size ∧ readNoun g (write g n) = (.ok n, g) := by
  intro a g n
  have hsize : Piece.elementCount (Piece.whole a) < UInt64.size := by decide
  obtain ⟨hgrow, hd⟩ := Graph.grows_put (Graph.wellFormed_empty ⟨0⟩) a
  exact ⟨hsize, (readNoun_write hgrow.wellFormed hd hsize).2.1⟩

end NockDispatch.Text
