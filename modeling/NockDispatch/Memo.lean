import NockDispatch.Graph.Basic

/-!
# Memos

A memo keeps products under the operation and the four nouns they were computed from. All of
these are ids of one graph, the owner of the memo, which is the graph of the first product
that was kept. In any other graph the same ids name other nouns; so on behalf of another
graph nothing is found and nothing is kept.

A memo counts how often something was found, how often not, and how often something was kept.
-/

namespace NockDispatch

namespace Memo

/-- A tag as a word: its bytes are the digits in base 256, the lowest first, and what does not fit
is lost. -/
def mote (bytes : List UInt8) : UInt64 :=
  bytes.foldr (fun byte rest => (rest <<< 8) ||| byte.toUInt64) 0

/-- The operation under which nest products are kept. -/
def nestOperation : UInt64 := 141 + mote "nest".toUTF8.toList

/-- What a product was computed from. -/
structure Key where
  operation : UInt64
  van : NodeId
  sut : NodeId
  tel : NodeId
  ref : NodeId
deriving DecidableEq, Hashable, Repr

structure Stats where
  hits : Nat
  misses : Nat
  stores : Nat
  entries : Nat
deriving DecidableEq, Repr

end Memo

/-- Products by what they were computed from, with the counts of a memo's use. -/
structure Memo where
  /-- The graph to which all ids belong, once there are some. -/
  owner : Option GraphId
  table : Std.HashMap Memo.Key NodeId
  hits : Nat
  misses : Nat
  stores : Nat
deriving Inhabited

namespace Memo

def empty : Memo := ⟨none, ∅, 0, 0, 0⟩

def stats (m : Memo) : Stats := ⟨m.hits, m.misses, m.stores, m.table.size⟩

/-- A memo without an owner serves every graph, and else only its owner. -/
def serves (m : Memo) (g : GraphId) : Bool :=
  match m.owner with
  | none => true
  | some owner => owner == g

def get? (m : Memo) (g : GraphId) (key : Key) : Option NodeId :=
  if m.serves g then m.table[key]? else none

/-- Look a key up on behalf of a graph, and count that. -/
def find (m : Memo) (g : GraphId) (key : Key) : Option NodeId × Memo :=
  match m.get? g key with
  | some product => (some product, { m with hits := m.hits + 1 })
  | none => (none, { m with misses := m.misses + 1 })

def save (m : Memo) (g : GraphId) (key : Key) (product : NodeId) : Memo :=
  if m.serves g then
    { m with owner := some g, table := m.table.insert key product, stores := m.stores + 1 }
  else m

theorem get?_empty (g : GraphId) (key : Key) : empty.get? g key = none := by
  simp [get?, empty]

theorem get?_save_self {m : Memo} {g : GraphId} (serves : m.serves g = true) (key other : Key)
    (product : NodeId) :
    (m.save g key product).get? g other = if key = other then some product else m.get? g other := by
  have kept : (m.save g key product).get? g other = (m.table.insert key product)[other]? := by
    rw [save, if_pos serves]
    simp [get?, Memo.serves]
  rw [kept, Std.HashMap.getElem?_insert]
  simp only [beq_iff_eq, get?, if_pos serves]

end Memo
end NockDispatch
