import NockDispatch.Graph.Denotation

/-!
# Growing graphs

Whatever is done to a graph, it only ever stores more nodes. `Graph.Grows` says what this
leaves: the graph keeps its name and every node at its id, and it stays well-formed.

`Graph.put` stores a noun with all of its parts. In a graph that holds the noun already it
does nothing, and so the graph that is left depends on the nouns that were stored and not
on the ids by which they were put together.
-/

namespace NockDispatch.Graph

/-- A graph `h` that was `g` before more nodes were stored. -/
structure Grows (g h : Graph) : Prop where
  id_eq : h.id = g.id
  extend : g.Extends h
  wellFormed : h.WellFormed

/-- A node whose children are there already. -/
def Fits (g : Graph) : Node → Prop
  | .atom _ => True
  | .cell head tail => g.Stored head ∧ g.Stored tail

instance (g : Graph) (id : NodeId) : Decidable (g.Stored id) :=
  inferInstanceAs (Decidable (_ < _))

variable {g h k : Graph}

theorem Grows.refl (wf : g.WellFormed) : g.Grows g := ⟨rfl, Extends.refl g, wf⟩

theorem Grows.trans (hgh : g.Grows h) (hhk : h.Grows k) : g.Grows k :=
  ⟨hhk.id_eq.trans hgh.id_eq, hgh.extend.trans hhk.extend, hhk.wellFormed⟩

theorem stored_of_node? {id : NodeId} {node : Node} (hn : g.node? id = some node) :
    g.Stored id := by
  apply node?_isSome_iff.mp
  rw [hn]
  rfl

theorem Extends.stored (hgh : g.Extends h) {id : NodeId} (hs : g.Stored id) : h.Stored id := by
  obtain ⟨node, hn⟩ := Option.isSome_iff_exists.mp (node?_isSome_iff.mpr hs)
  exact stored_of_node? (hgh hn)

theorem Grows.stored (hgh : g.Grows h) {id : NodeId} (hs : g.Stored id) : h.Stored id :=
  hgh.extend.stored hs

theorem Denotes.stored {id : NodeId} {a : Noun} (hd : g.Denotes id a) : g.Stored id := by
  cases hd with
  | atom hn => exact stored_of_node? hn
  | cell hn _ _ => exact stored_of_node? hn

/-! ## Storing a node -/

theorem intern_id (g : Graph) (node : Node) : (g.intern node).2.id = g.id := by
  unfold intern
  split <;> rfl

theorem stored_intern (wf : g.WellFormed) (node : Node) :
    (g.intern node).2.Stored (g.intern node).1 :=
  stored_of_node? (node?_intern wf node)

theorem intern_of_node? (wf : g.WellFormed) {id : NodeId} {node : Node}
    (hn : g.node? id = some node) : g.intern node = (id, g) :=
  intern_of_stored (wf.indexed.mpr hn)

/-- A node that was stored once is found again, however the graph has grown since. -/
theorem intern_again (wf : g.WellFormed) (wf' : h.WellFormed) {node : Node}
    (hext : (g.intern node).2.Extends h) : h.intern node = ((g.intern node).1, h) :=
  intern_of_node? wf' (hext (node?_intern wf node))

theorem node?_push {node : Node} {ids : Std.HashMap Node NodeId} {id : NodeId} :
    (Graph.mk g.id (g.nodes.push node) ids).node? id =
      if id.index = g.nodes.size then some node else g.node? id := by
  simp only [node?, Array.getElem?_push]

theorem WellFormed.intern (wf : g.WellFormed) {node : Node} (hf : g.Fits node) :
    (g.intern node).2.WellFormed := by
  unfold Graph.intern
  split
  · exact wf
  · next hnew =>
    constructor
    · intro id head tail hn
      rw [node?_push] at hn
      split at hn
      · next hlast =>
        cases hn
        rw [hlast]
        exact hf
      · exact wf.descends hn
    · intro old id
      rw [node?_push, Std.HashMap.getElem?_insert]
      by_cases heq : node = old
      · subst heq
        have hnone : ¬ g.node? id = some node := fun hn => by
          rw [← wf.indexed, hnew] at hn
          contradiction
        simp only [beq_self_eq_true, if_true, Option.some.injEq]
        constructor
        · rintro rfl
          simp
        · intro hid
          split at hid
          · next hlast => exact congrArg NodeId.mk hlast.symm
          · exact absurd hid hnone
      · have hne : (node == old) = false := by simpa using heq
        simp only [hne, Bool.false_eq_true, if_false]
        split
        · next hlast =>
          have hnone : g.node? id = none := by simp [node?, hlast]
          rw [wf.indexed, hnone]
          simp [heq]
        · rw [wf.indexed]

theorem grows_intern (wf : g.WellFormed) {node : Node} (hf : g.Fits node) :
    g.Grows (g.intern node).2 :=
  ⟨intern_id g node, extends_intern g node, wf.intern hf⟩

theorem triple_eq (g : Graph) (a b c : NodeId) :
    g.triple a b c = (g.cell b c).2.cell a (g.cell b c).1 := rfl

/-! ## Storing a noun -/

/-- Store a noun with all of its parts, the head of a cell before its tail. -/
def put (g : Graph) : Noun → NodeId × Graph
  | .atom value => g.atom value
  | .cell a b =>
    let (head, g) := g.put a
    let (tail, g) := g.put b
    g.cell head tail

theorem put_atom (g : Graph) (value : Nat) : g.put (.atom value) = g.atom value := rfl

theorem put_cell (g : Graph) (a b : Noun) :
    g.put (.cell a b) =
      ((g.put a).2.put b).2.cell (g.put a).1 ((g.put a).2.put b).1 := rfl

theorem grows_put (wf : g.WellFormed) (a : Noun) :
    g.Grows (g.put a).2 ∧ (g.put a).2.Denotes (g.put a).1 a := by
  induction a generalizing g with
  | atom value =>
    exact ⟨grows_intern wf trivial, .atom (node?_intern wf _)⟩
  | cell a b iha ihb =>
    obtain ⟨hga, hda⟩ := iha wf
    obtain ⟨hgb, hdb⟩ := ihb hga.wellFormed
    have hda' := hda.extend hgb.extend
    have hfits : ((g.put a).2.put b).2.Fits (.cell (g.put a).1 ((g.put a).2.put b).1) :=
      ⟨hda'.stored, hdb.stored⟩
    have hgc := grows_intern hgb.wellFormed hfits
    rw [put_cell]
    exact ⟨(hga.trans hgb).trans hgc, .cell (node?_intern hgb.wellFormed _)
      (hda'.extend hgc.extend) (hdb.extend hgc.extend)⟩

/-- A noun that is there is not stored again. -/
theorem put_of_denotes (wf : g.WellFormed) {id : NodeId} {a : Noun} (hd : g.Denotes id a) :
    g.put a = (id, g) := by
  induction hd with
  | atom hn => exact intern_of_node? wf hn
  | cell hn _ _ iha ihb =>
    rw [put_cell, iha, ihb]
    exact intern_of_node? wf hn

theorem cell_eq_put (wf : g.WellFormed) {head tail : NodeId} {a b : Noun}
    (ha : g.Denotes head a) (hb : g.Denotes tail b) : g.cell head tail = g.put (.cell a b) := by
  rw [put_cell, put_of_denotes wf ha, put_of_denotes wf hb]

def putAll (g : Graph) (nouns : List Noun) : Graph :=
  nouns.foldl (fun g a => (g.put a).2) g

@[simp] theorem putAll_nil (g : Graph) : g.putAll [] = g := rfl

@[simp] theorem putAll_cons (g : Graph) (a : Noun) (rest : List Noun) :
    g.putAll (a :: rest) = (g.put a).2.putAll rest := rfl

@[simp] theorem putAll_append (g : Graph) (first rest : List Noun) :
    g.putAll (first ++ rest) = (g.putAll first).putAll rest :=
  List.foldl_append

theorem grows_putAll (wf : g.WellFormed) (nouns : List Noun) : g.Grows (g.putAll nouns) := by
  induction nouns generalizing g with
  | nil => exact .refl wf
  | cons a rest ih =>
    have hga := (grows_put wf a).1
    exact hga.trans (ih hga.wellFormed)

theorem denotes_putAll (wf : g.WellFormed) {nouns : List Noun} {a : Noun} (ha : a ∈ nouns) :
    ∃ id, (g.putAll nouns).Denotes id a := by
  induction nouns generalizing g with
  | nil => simp at ha
  | cons b rest ih =>
    obtain ⟨hgb, hdb⟩ := grows_put wf b
    rcases List.mem_cons.mp ha with rfl | ha
    · exact ⟨_, hdb.extend (grows_putAll hgb.wellFormed rest).extend⟩
    · exact ih hgb.wellFormed ha

theorem putAll_of_denotes (wf : g.WellFormed) {nouns : List Noun}
    (hd : ∀ a ∈ nouns, ∃ id, g.Denotes id a) : g.putAll nouns = g := by
  induction nouns with
  | nil => rfl
  | cons a rest ih =>
    obtain ⟨id, ha⟩ := hd a (by simp)
    rw [putAll_cons, put_of_denotes wf ha]
    exact ih fun b hb => hd b (by simp [hb])

theorem putAll_again (wf : g.WellFormed) {nouns : List Noun} (hh : h.WellFormed)
    (hext : (g.putAll nouns).Extends h) : h.putAll nouns = h := by
  apply putAll_of_denotes hh
  intro a ha
  obtain ⟨id, hd⟩ := denotes_putAll wf ha
  exact ⟨id, hd.extend hext⟩

/-! ## Graphs without repetition -/

/-- Nothing is stored twice, and so ids and nouns stand for one another. -/
structure Canonical (g : Graph) : Prop extends g.WellFormed where
  distinct : g.nodes.toList.Nodup
  denotes : ∀ ⦃id⦄, g.Stored id → ∃ a, g.Denotes id a
  eq_iff : ∀ ⦃id other a b⦄, g.Denotes id a → g.Denotes other b → (id = other ↔ a = b)

theorem WellFormed.canonical (wf : g.WellFormed) : g.Canonical where
  toWellFormed := wf
  distinct := by
    rw [List.Nodup, List.pairwise_iff_getElem]
    intro i j hi hj hij heq
    rw [Array.length_toList] at hi hj
    rw [Array.getElem_toList, Array.getElem_toList] at heq
    have hn : g.node? ⟨i⟩ = some g.nodes[i] := Array.getElem?_eq_getElem hi
    have hm : g.node? ⟨j⟩ = some g.nodes[i] := by rw [heq, node?, Array.getElem?_eq_getElem hj]
    cases (wf.indexed.mpr hn).symm.trans (wf.indexed.mpr hm)
    exact Nat.lt_irrefl i hij
  denotes _ hs := exists_denotes wf hs
  eq_iff id other a b ha hb := by
    constructor
    · rintro rfl
      exact ha.functional hb
    · rintro rfl
      exact ha.injective wf hb

theorem Extends.appends (hgh : g.Extends h) : g.nodes.toList <+: h.nodes.toList := by
  rw [List.prefix_iff_getElem?]
  intro i hi
  rw [Array.length_toList] at hi
  have hn : g.node? ⟨i⟩ = some g.nodes[i] := Array.getElem?_eq_getElem hi
  rw [Array.getElem?_toList, Array.getElem_toList]
  exact hgh hn

end NockDispatch.Graph
