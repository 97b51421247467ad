import NockDispatch.Axis
import NockDispatch.Graph.Basic

/-!
# Slots of stored nouns

Reading a slot follows the way of its axis down from a node. Replacing a slot first goes the
same way down, remembering at each cell the half that is not taken, and then stores the
cells of the way anew from the lowest to the highest; all that lies off the way is shared
with the noun that was there before. When the way runs into an atom there is no slot, and
nothing is stored.
-/

namespace NockDispatch.Graph

def child? (g : Graph) (id : NodeId) (side : Side) : Option NodeId :=
  match g.cell? id, side with
  | some (head, _), .head => some head
  | some (_, tail), .tail => some tail
  | none, _ => none

def walk (g : Graph) (root : NodeId) : List Side → Option NodeId
  | [] => some root
  | side :: way =>
    match g.child? root side with
    | some next => g.walk next way
    | none => none

def slot? (g : Graph) (root : NodeId) (axis : Nat) : Option NodeId :=
  (Axis.path axis).bind (g.walk root)

def wordSlot? (g : Graph) (root : NodeId) (axis : UInt64) : Option NodeId :=
  (Axis.wordPath axis).bind (g.walk root)

/-- The slots at several axes, provided that all of them are there. -/
def slots? (g : Graph) (root : NodeId) (axes : List UInt64) : Option (List NodeId) :=
  axes.mapM (g.wordSlot? root)

/-- A cell on the way down: the side that was taken, and the half on the other side. -/
structure Turn where
  taken : Side
  sibling : NodeId

/-- The turns along a way down, the lowest first, on top of those of the way above it. -/
def turns (g : Graph) (root : NodeId) (above : List Turn) : List Side → Option (List Turn)
  | [] => some above
  | side :: way =>
    match g.cell? root, side with
    | some (head, tail), .head => g.turns head (⟨.head, tail⟩ :: above) way
    | some (head, tail), .tail => g.turns tail (⟨.tail, head⟩ :: above) way
    | none, _ => none

/-- Store the cells of a way anew, from the lowest turn up, around a new lowest node. -/
def rebuild (g : Graph) (node : NodeId) : List Turn → NodeId × Graph
  | [] => (node, g)
  | ⟨.head, tail⟩ :: above =>
    let (node, g) := g.cell node tail
    g.rebuild node above
  | ⟨.tail, head⟩ :: above =>
    let (node, g) := g.cell head node
    g.rebuild node above

def editAlong (g : Graph) (root : NodeId) (way : List Side) (value : NodeId) :
    Option NodeId × Graph :=
  match g.turns root [] way with
  | some turns =>
    let (node, g) := g.rebuild value turns
    (some node, g)
  | none => (none, g)

def edit (g : Graph) (root : NodeId) (axis : Nat) (value : NodeId) : Option NodeId × Graph :=
  match Axis.path axis with
  | some way => g.editAlong root way value
  | none => (none, g)

def wordEdit (g : Graph) (root : NodeId) (axis : UInt64) (value : NodeId) :
    Option NodeId × Graph :=
  match Axis.wordPath axis with
  | some way => g.editAlong root way value
  | none => (none, g)

theorem walk_append (g : Graph) (root : NodeId) (upper lower : List Side) :
    g.walk root (upper ++ lower) = (g.walk root upper).bind (g.walk · lower) := by
  induction upper generalizing root with
  | nil => rfl
  | cons side upper ih =>
    simp only [List.cons_append, walk]
    cases g.child? root side <;> simp [ih]

theorem turns_isSome (g : Graph) (root : NodeId) (above : List Turn) (way : List Side) :
    (g.turns root above way).isSome = (g.walk root way).isSome := by
  induction way generalizing root above with
  | nil => rfl
  | cons side way ih =>
    cases side <;> cases cell : g.cell? root <;> simp [turns, walk, child?, cell, ih]

end NockDispatch.Graph
