import Std.Data.HashMap

/-!
# Graphs of shared nouns

A graph stores each noun once. A node is an atom or a cell of two earlier nodes, and its
id is its place in the order of first storage, so two ids of one graph name the same noun
exactly when they are equal. Storing a node that is already there gives back its old id and
leaves the graph alone; nothing is ever changed or removed.

`Graph.WellFormed` states what every stored graph satisfies: a cell comes after both of its
children, and the index finds each node at its own id and nowhere else.

An id is a number of any size, and there is always one for a new node. The program's ids are words
of 32 bits, and it stops where they run out: what is said of a graph is said as long as it does not.
-/

namespace NockDispatch

/-- The name of a node in its graph: its place in the order of first storage. -/
structure NodeId where
  index : Nat
deriving DecidableEq, Hashable, Repr, Inhabited

/-- The name of a graph. Ids of nodes mean something only in the graph that gave them out. -/
structure GraphId where
  index : Nat
deriving DecidableEq, Hashable, Repr, Inhabited

/-- A stored noun: an atom of any size, or a cell of two nodes of the same graph. -/
inductive Node where
  | atom (value : Nat)
  | cell (head tail : NodeId)
deriving DecidableEq, Hashable, Repr, Inhabited

/-- The stored nodes in order, and for each of them the id under which it stands. -/
structure Graph where
  id : GraphId
  nodes : Array Node
  ids : Std.HashMap Node NodeId
deriving Inhabited

namespace Graph

def empty (id : GraphId) : Graph := ⟨id, #[], ∅⟩

/-- The number of stored nodes, which is also the index of the next new one. -/
def size (g : Graph) : Nat := g.nodes.size

@[inline] def node? (g : Graph) (id : NodeId) : Option Node := g.nodes[id.index]?

@[inline] def cell? (g : Graph) (id : NodeId) : Option (NodeId × NodeId) :=
  match g.node? id with
  | some (.cell head tail) => some (head, tail)
  | _ => none

@[inline] def atom? (g : Graph) (id : NodeId) : Option Nat :=
  match g.node? id with
  | some (.atom value) => some value
  | _ => none

@[inline] def word? (g : Graph) (id : NodeId) : Option UInt64 :=
  match g.atom? id with
  | some value => if value < UInt64.size then some value.toUInt64 else none
  | none => none

/-- Nouns answer yes with 0 and no with 1. -/
def loobean? (g : Graph) (id : NodeId) : Option Bool :=
  match g.atom? id with
  | some 0 => some true
  | some 1 => some false
  | _ => none

/-- Store a node, unless it is there already, and name it. -/
def intern (g : Graph) (node : Node) : NodeId × Graph :=
  match g.ids[node]? with
  | some id => (id, g)
  | none =>
    let id : NodeId := ⟨g.nodes.size⟩
    (id, { g with nodes := g.nodes.push node, ids := g.ids.insert node id })

@[inline] def atom (g : Graph) (value : Nat) : NodeId × Graph := g.intern (.atom value)

@[inline] def cell (g : Graph) (head tail : NodeId) : NodeId × Graph :=
  g.intern (.cell head tail)

def triple (g : Graph) (a b c : NodeId) : NodeId × Graph :=
  let (rest, g) := g.cell b c
  g.cell a rest

/-- Bytes as the digits of a number in base 256, the lowest first. -/
def ofBytes (bytes : List UInt8) : Nat :=
  bytes.foldr (fun byte rest => byte.toNat + 256 * rest) 0

/-- Store the atom whose bytes, the lowest first, spell a text. -/
def cord (g : Graph) (text : String) : NodeId × Graph :=
  g.atom (ofBytes text.toUTF8.toList)

/-- What every graph satisfies that was built up from an empty one. -/
structure WellFormed (g : Graph) : Prop where
  /-- The children of a cell were stored before it. -/
  descends : ∀ ⦃id head tail⦄, g.node? id = some (.cell head tail) →
    head.index < id.index ∧ tail.index < id.index
  /-- The index names exactly the stored nodes, each by its own id. -/
  indexed : ∀ ⦃node id⦄, g.ids[node]? = some id ↔ g.node? id = some node

/-- Every node of `g` stands at the same id in `h`. -/
def Extends (g h : Graph) : Prop :=
  ∀ ⦃id node⦄, g.node? id = some node → h.node? id = some node

theorem wellFormed_empty (id : GraphId) : (empty id).WellFormed := by
  constructor <;> intros <;> simp_all [empty, node?]

theorem Extends.refl (g : Graph) : g.Extends g := fun _ _ stored => stored

theorem Extends.trans {g h k : Graph} (gh : g.Extends h) (hk : h.Extends k) : g.Extends k :=
  fun _ _ stored => hk (gh stored)

theorem intern_of_stored {g : Graph} {node : Node} {id : NodeId} (stored : g.ids[node]? = some id) :
    g.intern node = (id, g) := by
  simp [intern, stored]

theorem extends_intern (g : Graph) (node : Node) : g.Extends (g.intern node).2 := by
  intro id old stored
  unfold intern
  split
  · exact stored
  · simp only [node?] at stored ⊢
    obtain ⟨bound, value⟩ := Array.getElem?_eq_some_iff.mp stored
    rw [Array.getElem?_push_lt bound, value]

theorem node?_intern {g : Graph} (wf : g.WellFormed) (node : Node) :
    (g.intern node).2.node? (g.intern node).1 = some node := by
  unfold intern
  split
  · next id stored => exact wf.indexed.mp stored
  · simp [node?]

end Graph
end NockDispatch
