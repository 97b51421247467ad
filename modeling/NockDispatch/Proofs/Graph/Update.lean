import NockDispatch.Proofs.Graph.Edit
import NockDispatch.Proofs.Noun.Position

/-!
# Edits as updates

An edit gives a copy of a noun in which one slot holds another noun. In the copy the edited
slot and all slots inside it are those of the new noun, and every slot that lies elsewhere is the
very node that it was before. One cell for each step of the way is all that is stored, and nothing
where the copy is the noun itself.
-/

namespace NockDispatch.Graph

variable {g h : Graph} {root value : NodeId}

/-! ## The cells that are stored -/

theorem size_intern_le (g : Graph) (node : Node) : (g.intern node).2.size ≤ g.size + 1 := by
  unfold intern
  split <;> simp [size]

theorem size_cell_le (g : Graph) (head tail : NodeId) :
    (g.cell head tail).2.size ≤ g.size + 1 :=
  g.size_intern_le (.cell head tail)

theorem turns_length {above turns : List Turn} {way : List Side}
    (ht : g.turns root above way = some turns) : turns.length = above.length + way.length := by
  induction way generalizing root above with
  | nil =>
    cases ht
    rfl
  | cons side way ih =>
    unfold Graph.turns at ht
    split at ht
    · rw [ih ht, List.length_cons, List.length_cons]
      omega
    · rw [ih ht, List.length_cons, List.length_cons]
      omega
    · cases ht

theorem size_rebuild_le (g : Graph) (node : NodeId) (turns : List Turn) :
    (g.rebuild node turns).2.size ≤ g.size + turns.length := by
  induction turns generalizing g node with
  | nil => exact Nat.le_refl _
  | cons turn turns ih =>
    obtain ⟨side, sibling⟩ := turn
    rw [List.length_cons]
    cases side with
    | head =>
      have hcell := g.size_cell_le node sibling
      have hrest := ih (g.cell node sibling).2 (g.cell node sibling).1
      exact Nat.le_trans hrest (by omega)
    | tail =>
      have hcell := g.size_cell_le sibling node
      have hrest := ih (g.cell sibling node).2 (g.cell sibling node).1
      exact Nat.le_trans hrest (by omega)

theorem size_edit_le (g : Graph) (root : NodeId) (axis : Nat) (value : NodeId) :
    (g.edit root axis value).2.size ≤ g.size + axis.log2 := by
  unfold edit
  cases hway : Axis.path axis with
  | none => exact Nat.le_add_right _ _
  | some way =>
    dsimp only
    unfold editAlong
    cases hturns : g.turns root [] way with
    | none => exact Nat.le_add_right _ _
    | some turns =>
      have hlength := turns_length hturns
      rw [Axis.path_length hway, List.length_nil, Nat.zero_add] at hlength
      rw [← hlength]
      exact g.size_rebuild_le value turns

/-! ## Slots that hold the same noun -/

theorem Denotes.slot?_eq (wf : g.WellFormed) {id other : NodeId} {a b : Noun}
    (ha : g.Denotes id a) (hb : g.Denotes other b) {axis axis' : Nat}
    (hslot : a.slot? axis = b.slot? axis') : g.slot? id axis = g.slot? other axis' := by
  cases hc : b.slot? axis' with
  | none => rw [ha.slot?_none (hslot.trans hc), hb.slot?_none hc]
  | some c =>
    obtain ⟨_, hid, hd⟩ := ha.slot?_some (hslot.trans hc)
    obtain ⟨_, hid', hd'⟩ := hb.slot?_some hc
    rw [hid, hid', hd.injective wf hd']

theorem Denotes.slot?_of_slot?_eq {a b : Noun} (ha : g.Denotes root a)
    (hb : g.Denotes value b) {axis : Nat} (hslot : g.slot? root axis = some value) :
    a.slot? axis = some b := by
  cases hc : a.slot? axis with
  | none =>
    rw [ha.slot?_none hc] at hslot
    cases hslot
  | some c =>
    obtain ⟨_, hid, hd⟩ := ha.slot?_some hc
    cases hid.symm.trans hslot
    rw [hd.functional hb]

theorem slot?_one (g : Graph) (id : NodeId) : g.slot? id 1 = some id := by
  rw [slot?, Axis.path_one]
  rfl

/-! ## Lawful updates -/

/-- What an edit of `root` at an axis promises of the copy that it gives, if any, and of the graph
that it leaves. -/
structure Updated (g : Graph) (root : NodeId) (axis : Nat) (value : NodeId)
    (result : Option NodeId × Graph) : Prop where
  isSome_eq : result.1.isSome = (g.slot? root axis).isSome
  missing : result.1 = none → result.2 = g
  wellFormed : result.2.WellFormed
  kept : ∀ ⦃id a⦄, g.Denotes id a → result.2.Denotes id a
  /-- No more cells are stored than the axis has digits after its leading one. -/
  size_le : result.2.size ≤ g.size + axis.log2
  edited : ∀ ⦃copy⦄, result.1 = some copy → result.2.slot? copy axis = some value
  /-- Slots that neither hold the edited slot nor lie inside it are those of `root`. -/
  apart : ∀ ⦃copy other⦄, result.1 = some copy → ¬ Axis.Above other axis →
    ¬ Axis.Above axis other → result.2.slot? copy other = g.slot? root other
  inside : ∀ ⦃copy inner⦄, result.1 = some copy → inner ≠ 0 →
    result.2.slot? copy (Axis.join axis inner) = g.slot? value inner
  /-- To write back what is there gives `root` itself and stores nothing. -/
  same : g.slot? root axis = some value → result = (some root, g)

theorem Denotes.not_updated (wf : g.WellFormed) {a b : Noun} (ha : g.Denotes root a) {axis : Nat}
    (he : a.edit? axis b = none) (value : NodeId) : g.Updated root axis value (none, g) := by
  have hslot : g.slot? root axis = none := by
    apply ha.slot?_none
    rw [← Option.isNone_iff_eq_none, ← Option.not_isSome, ← Noun.edit?_isSome a axis b, he]
    rfl
  constructor
  case isSome_eq => rw [hslot]
  case missing => exact fun _ => rfl
  case wellFormed => exact wf
  case kept => exact fun _ _ hd => hd
  case size_le => exact Nat.le_add_right _ _
  case same =>
    rw [hslot]
    rintro ⟨⟩
  case edited => rintro _ ⟨⟩
  case apart => rintro _ _ ⟨⟩
  case inside => rintro _ _ ⟨⟩

theorem Denotes.updated (wf : g.WellFormed) {a b c : Noun} (ha : g.Denotes root a)
    (hb : g.Denotes value b) {axis : Nat} (he : a.edit? axis b = some c) :
    g.Updated root axis value (some (g.put c).1, (g.put c).2) := by
  obtain ⟨hgrow, hc⟩ := grows_put wf c
  have ha' := ha.extend hgrow.extend
  have hb' := hb.extend hgrow.extend
  have wf' := hgrow.wellFormed
  constructor
  case isSome_eq =>
    have hsome := Noun.edit?_isSome a axis b
    rw [he, Option.isSome_some, eq_comm, Option.isSome_iff_exists] at hsome
    obtain ⟨_, hslot⟩ := hsome
    obtain ⟨_, hid, -⟩ := ha.slot?_some hslot
    rw [hid]
    rfl
  case missing => rintro ⟨⟩
  case wellFormed => exact wf'
  case kept => exact fun _ _ hd => hd.extend hgrow.extend
  case size_le =>
    have hsize := g.size_edit_le root axis value
    rwa [ha.edit wf hb axis, he] at hsize
  case edited =>
    rintro _ ⟨⟩
    have hone : c.slot? axis = b.slot? 1 := by rw [Noun.slot?_edit?_self he, Noun.slot?_one]
    rw [hc.slot?_eq wf' hb' hone, slot?_one]
  case apart =>
    rintro _ other ⟨⟩ habove hbelow
    rw [hc.slot?_eq wf' ha' (Noun.slot?_edit?_apart he hbelow habove),
      ha.slot?_extend hgrow.extend]
  case inside =>
    rintro _ inner ⟨⟩ hinner
    rw [hc.slot?_eq wf' hb' (Noun.slot?_edit?_below he hinner), hb.slot?_extend hgrow.extend]
  case same =>
    intro hslot
    rw [Noun.edit?_slot? (ha.slot?_of_slot?_eq hb hslot)] at he
    cases he
    rw [put_of_denotes wf ha]

/-- An edit by an axis of any size, or by one held in a word, is a lawful update. -/
theorem edit_updated (wf : g.WellFormed) (hroot : g.Stored root) (hvalue : g.Stored value) :
    (∀ axis : Nat, g.Updated root axis value (g.edit root axis value)) ∧
    (∀ axis : UInt64, g.Updated root axis.toNat value (g.wordEdit root axis value)) ∧
    ∀ (h : Graph) (id : NodeId) (axis : UInt64), h.wordSlot? id axis = h.slot? id axis.toNat := by
  suffices hlaws : ∀ axis : Nat, g.Updated root axis value (g.edit root axis value) from
    ⟨hlaws, fun axis => g.wordEdit_eq root axis value ▸ hlaws axis.toNat, wordSlot?_eq⟩
  intro axis
  obtain ⟨a, ha⟩ := exists_denotes wf hroot
  obtain ⟨b, hb⟩ := exists_denotes wf hvalue
  rw [ha.edit wf hb axis]
  cases he : a.edit? axis b with
  | none => exact ha.not_updated wf he value
  | some c => exact ha.updated wf hb he

/-- `[1 2 3]` with its own tail in the place of the 2. Both the 3 of the new slot and the 3 beside
it are the node that was there, and the tail can be written back to where it stands. -/
theorem edit_updated_tail :
    let stored := (empty ⟨0⟩).put (.cell (.atom 1) (.cell (.atom 2) (.atom 3)))
    let g := stored.2
    let root := stored.1
    ∃ tail copy, g.Stored root ∧ g.Stored tail ∧ g.wordSlot? root 3 = some tail ∧
      (g.edit root 6 tail).1 = some copy ∧
      (g.edit root 6 tail).2.slot? copy 13 = g.slot? root 7 ∧
      (g.edit root 6 tail).2.slot? copy 7 = g.slot? root 7 ∧
      (g.edit root 6 tail).2.size ≤ g.size + 2 ∧ g.wordEdit root 3 tail = (some root, g) := by
  intro stored g root
  obtain ⟨hgrow, hd⟩ := grows_put (wellFormed_empty ⟨0⟩)
    (.cell (.atom 1) (.cell (.atom 2) (.atom 3)))
  have hslot : (Noun.cell (.atom 1) (.cell (.atom 2) (.atom 3))).slot? 3 =
      some (.cell (.atom 2) (.atom 3)) := rfl
  obtain ⟨tail, htail, hd'⟩ := hd.slot?_some hslot
  obtain ⟨hedit, hword, hread⟩ := edit_updated hgrow.wellFormed hd.stored hd'.stored
  have hsome : (g.edit root 6 tail).1.isSome := by
    have hslot' : (Noun.cell (.atom 1) (.cell (.atom 2) (.atom 3))).slot? 6 = some (.atom 2) := rfl
    obtain ⟨_, hsix, -⟩ := hd.slot?_some hslot'
    rw [(hedit 6).isSome_eq, hsix]
    rfl
  obtain ⟨copy, hcopy⟩ := Option.isSome_iff_exists.mp hsome
  refine ⟨tail, copy, hd.stored, hd'.stored, (hread g root 3).trans htail, hcopy, ?_, ?_,
    (hedit 6).size_le, (hword 3).same htail⟩
  · have hthree : (Noun.cell (.atom 2) (.atom 3)).slot? 3 =
      (Noun.cell (.atom 1) (.cell (.atom 2) (.atom 3))).slot? 7 := rfl
    exact ((hedit 6).inside hcopy (by decide : 3 ≠ 0)).trans
      (hd'.slot?_eq hgrow.wellFormed hd hthree)
  · exact (hedit 6).apart hcopy (by decide) (by decide)

end NockDispatch.Graph
