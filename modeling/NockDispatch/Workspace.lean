import NockDispatch.Graph.Basic

/-!
# Workspaces

A workspace holds several graphs, each named by its place in the order of creation. A new
graph stores nothing or is a copy of another one; from then on the two grow apart, and so the
copy has a name of its own.
-/

namespace NockDispatch

/-- Graphs in the order of creation. -/
structure Workspace where
  graphs : Array Graph

namespace Workspace

def empty : Workspace := ⟨#[]⟩

def nextId (w : Workspace) : GraphId := ⟨w.graphs.size⟩

def graph? (w : Workspace) (id : GraphId) : Option Graph := w.graphs[id.index]?

def create (w : Workspace) : GraphId × Workspace :=
  (w.nextId, ⟨w.graphs.push (.empty w.nextId)⟩)

def clone (w : Workspace) (g : Graph) : GraphId × Workspace :=
  (w.nextId, ⟨w.graphs.push { g with id := w.nextId }⟩)

/-- Let a computation have a graph and put back what it leaves. -/
def run (w : Workspace) (id : GraphId) (act : Graph → α × Graph) : Option (α × Workspace) :=
  if h : id.index < w.graphs.size then
    let ⟨graphs⟩ := w
    let graph := graphs[id.index]
    let graphs := graphs.set id.index (.empty id)
    let (answer, graph) := act graph
    some (answer, ⟨graphs.setIfInBounds id.index graph⟩)
  else none

/-- Every graph carries the name it is found by. -/
def Named (w : Workspace) : Prop :=
  ∀ ⦃id g⦄, w.graph? id = some g → g.id = id

theorem named_empty : empty.Named := by
  intro id g h
  simp [empty, graph?] at h

theorem Named.create {w : Workspace} (named : w.Named) : w.create.2.Named := by
  intro id g h
  simp only [Workspace.create, graph?, Array.getElem?_push] at h
  split at h
  · next last =>
    cases h
    simp [Graph.empty, nextId, ← last]
  · exact named h

theorem Named.clone {w : Workspace} (named : w.Named) (source : Graph) :
    (w.clone source).2.Named := by
  intro id g h
  simp only [Workspace.clone, graph?, Array.getElem?_push] at h
  split at h
  · next last =>
    cases h
    simp [nextId, ← last]
  · exact named h

end Workspace
end NockDispatch
