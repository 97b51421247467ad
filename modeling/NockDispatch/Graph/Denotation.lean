import NockDispatch.Graph.Slot
import NockDispatch.Noun.Basic

/-!
# Ids as nouns

`Denotes g id a` says that the node `id` of `g` holds the noun `a`. Two statements tie ids to
nouns: an id denotes at most one noun, and it keeps it when the graph grows. In a well-formed
graph every stored id denotes a noun, and ids that denote the same noun are equal.
-/

namespace NockDispatch.Graph

/-- The noun that a node holds. -/
inductive Denotes (g : Graph) : NodeId → Noun → Prop
  | atom {id value} : g.node? id = some (.atom value) → Denotes g id (.atom value)
  | cell {id head tail a b} : g.node? id = some (.cell head tail) → Denotes g head a →
      Denotes g tail b → Denotes g id (.cell a b)

/-- An id that the graph gave out. -/
def Stored (g : Graph) (id : NodeId) : Prop := id.index < g.size

theorem node?_isSome_iff {g : Graph} {id : NodeId} : (g.node? id).isSome ↔ g.Stored id := by
  simp [node?, Stored, size]

theorem Denotes.functional {g : Graph} {id : NodeId} {a b : Noun} (left : g.Denotes id a)
    (right : g.Denotes id b) : a = b := by
  induction left generalizing b with
  | atom here =>
    cases right with
    | atom there =>
      rw [here] at there
      cases there
      rfl
    | cell there _ _ =>
      rw [here] at there
      cases there
  | cell here _ _ headEq tailEq =>
    cases right with
    | atom there =>
      rw [here] at there
      cases there
    | cell there head tail =>
      rw [here] at there
      cases there
      rw [headEq head, tailEq tail]

theorem Denotes.extend {g h : Graph} (extension : g.Extends h) {id : NodeId} {a : Noun}
    (denotes : g.Denotes id a) : h.Denotes id a := by
  induction denotes with
  | atom stored => exact .atom (extension stored)
  | cell stored _ _ head tail => exact .cell (extension stored) head tail

/-- Every stored id of a well-formed graph denotes a noun. -/
theorem exists_denotes {g : Graph} (wf : g.WellFormed) {id : NodeId} (stored : g.Stored id) :
    ∃ a, g.Denotes id a := by
  obtain ⟨node, found⟩ := Option.isSome_iff_exists.mp (node?_isSome_iff.mpr stored)
  cases node with
  | atom value => exact ⟨_, .atom found⟩
  | cell head tail =>
    obtain ⟨headLt, tailLt⟩ := wf.descends found
    have bound : id.index < g.size := stored
    have headStored : g.Stored head := Nat.lt_trans headLt bound
    have tailStored : g.Stored tail := Nat.lt_trans tailLt bound
    obtain ⟨a, headDenotes⟩ := exists_denotes wf headStored
    obtain ⟨b, tailDenotes⟩ := exists_denotes wf tailStored
    exact ⟨_, .cell found headDenotes tailDenotes⟩
termination_by id.index

/-- Ids of a well-formed graph that denote the same noun are equal. -/
theorem Denotes.injective {g : Graph} (wf : g.WellFormed) {id other : NodeId} {a : Noun}
    (left : g.Denotes id a) (right : g.Denotes other a) : id = other := by
  induction left generalizing other with
  | atom here =>
    cases right with
    | atom there =>
      have := (wf.indexed.mpr here).symm.trans (wf.indexed.mpr there)
      exact Option.some.inj this
  | cell here _ _ headEq tailEq =>
    cases right with
    | cell there head tail =>
      obtain rfl := headEq head
      obtain rfl := tailEq tail
      have := (wf.indexed.mpr here).symm.trans (wf.indexed.mpr there)
      exact Option.some.inj this

end NockDispatch.Graph
