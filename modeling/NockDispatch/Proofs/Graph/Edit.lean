import NockDispatch.Proofs.Graph.Growth
import NockDispatch.Proofs.Noun.Way

/-!
# Slots and edits of stored nouns

A slot of a node denotes the slot of its noun, and an edit stores exactly the edited noun:
the node that it gives and the graph that it leaves are those of `Graph.put`.
-/

namespace NockDispatch.Graph

variable {g : Graph}

/-! ## Reading a denoted node -/

theorem Denotes.node?_atom {id : NodeId} {n : Nat} (hd : g.Denotes id (.atom n)) :
    g.node? id = some (.atom n) := by
  cases hd with
  | atom hn => exact hn

theorem Denotes.exists_cell {id : NodeId} {a b : Noun} (hd : g.Denotes id (.cell a b)) :
    ∃ head tail, g.node? id = some (.cell head tail) ∧ g.Denotes head a ∧ g.Denotes tail b := by
  cases hd with
  | cell hn ha hb => exact ⟨_, _, hn, ha, hb⟩

theorem Denotes.cell?_atom {id : NodeId} {n : Nat} (hd : g.Denotes id (.atom n)) :
    g.cell? id = none := by
  simp [cell?, hd.node?_atom]

theorem Denotes.atom?_atom {id : NodeId} {n : Nat} (hd : g.Denotes id (.atom n)) :
    g.atom? id = some n := by
  simp [atom?, hd.node?_atom]

theorem Denotes.cell?_cell {id : NodeId} {a b : Noun} (hd : g.Denotes id (.cell a b)) :
    ∃ head tail, g.cell? id = some (head, tail) ∧ g.Denotes head a ∧ g.Denotes tail b := by
  obtain ⟨head, tail, hn, ha, hb⟩ := hd.exists_cell
  exact ⟨head, tail, by simp [cell?, hn], ha, hb⟩

theorem Denotes.atom?_cell {id : NodeId} {a b : Noun} (hd : g.Denotes id (.cell a b)) :
    g.atom? id = none := by
  obtain ⟨head, tail, hn, _, _⟩ := hd.exists_cell
  simp [atom?, hn]

theorem Denotes.word?_atom {id : NodeId} {n : Nat} (hd : g.Denotes id (.atom n)) :
    g.word? id = if n < UInt64.size then some n.toUInt64 else none := by
  simp [word?, hd.atom?_atom]

/-! ## Slots -/

theorem Denotes.walk {root : NodeId} {a : Noun} (hd : g.Denotes root a) (way : List Side) :
    Option.Rel g.Denotes (g.walk root way) (a.walk way) := by
  induction way generalizing root a with
  | nil =>
    rw [Noun.walk]
    exact .some hd
  | cons side way ih =>
    cases a with
    | atom n =>
      simp only [Graph.walk, child?, hd.cell?_atom, Noun.walk]
      exact .none
    | cell b c =>
      obtain ⟨head, tail, hcell, hb, hc⟩ := hd.cell?_cell
      cases side with
      | head =>
        simp only [Graph.walk, child?, hcell, Noun.walk]
        exact ih hb
      | tail =>
        simp only [Graph.walk, child?, hcell, Noun.walk]
        exact ih hc

theorem Denotes.walk_extend {h : Graph} (hgh : g.Extends h) {root : NodeId} {a : Noun}
    (hd : g.Denotes root a) (way : List Side) : h.walk root way = g.walk root way := by
  induction way generalizing root a with
  | nil => rfl
  | cons side way ih =>
    cases a with
    | atom n => simp only [Graph.walk, child?, hd.cell?_atom, (hd.extend hgh).cell?_atom]
    | cell b c =>
      obtain ⟨head, tail, hn, hb, hc⟩ := hd.exists_cell
      cases side with
      | head => simp only [Graph.walk, child?, cell?, hn, hgh hn, ih hb]
      | tail => simp only [Graph.walk, child?, cell?, hn, hgh hn, ih hc]

theorem Denotes.slot?_extend {h : Graph} (hgh : g.Extends h) {root : NodeId} {a : Noun}
    (hd : g.Denotes root a) (axis : Nat) : h.slot? root axis = g.slot? root axis := by
  unfold Graph.slot?
  cases Axis.path axis with
  | none => rfl
  | some way => exact hd.walk_extend hgh way

theorem Denotes.slot? {root : NodeId} {a : Noun} (hd : g.Denotes root a) (axis : Nat) :
    Option.Rel g.Denotes (g.slot? root axis) (a.slot? axis) := by
  unfold Graph.slot? Noun.slot?
  cases Axis.path axis with
  | none => exact .none
  | some way => exact hd.walk way

theorem Denotes.slot?_none {root : NodeId} {a : Noun} (hd : g.Denotes root a) {axis : Nat}
    (ha : a.slot? axis = none) : g.slot? root axis = none := by
  have hslot := hd.slot? axis
  rw [ha] at hslot
  generalize g.slot? root axis = found at hslot
  cases hslot
  rfl

theorem Denotes.slot?_some {root : NodeId} {a b : Noun} (hd : g.Denotes root a) {axis : Nat}
    (ha : a.slot? axis = some b) : ∃ id, g.slot? root axis = some id ∧ g.Denotes id b := by
  have hslot := hd.slot? axis
  rw [ha] at hslot
  generalize g.slot? root axis = found at hslot
  cases hslot with
  | some hb => exact ⟨_, rfl, hb⟩

/-! ## Edits -/

theorem Denotes.turns_of_replace {root : NodeId} {a b : Noun} (hd : g.Denotes root a)
    (above : List Turn) (way : List Side) (hr : Noun.replace b a way = none) :
    g.turns root above way = none := by
  have hwalk := hd.walk way
  have hnone : a.walk way = none := by
    simpa [hr] using Noun.replace_isSome b a way
  rw [hnone] at hwalk
  have hsome := turns_isSome g root above way
  generalize g.walk root way = found at hwalk hsome
  cases hwalk
  simpa using hsome

/-- Rebuilding from the turns of a way stores the replaced noun and goes on above it. -/
theorem Denotes.rebuild (wf : g.WellFormed) {root value : NodeId} {a b c : Noun}
    (hd : g.Denotes root a) (hv : g.Denotes value b) (above : List Turn) (way : List Side)
    (hr : Noun.replace b a way = some c) :
    ∃ ts, g.turns root above way = some ts ∧
      g.rebuild value ts = (g.put c).2.rebuild (g.put c).1 above := by
  induction way generalizing root a c above with
  | nil =>
    rw [Noun.replace] at hr
    cases hr
    exact ⟨above, rfl, by rw [put_of_denotes wf hv]⟩
  | cons side way ih =>
    cases a with
    | atom n => simp [Noun.replace] at hr
    | cell a₁ a₂ =>
      obtain ⟨head, tail, hcell, h₁, h₂⟩ := hd.cell?_cell
      cases side with
      | head =>
        rw [Noun.replace] at hr
        obtain ⟨d, hd', rfl⟩ := Option.map_eq_some_iff.mp hr
        obtain ⟨ts, ht, hb⟩ := ih h₁ (⟨.head, tail⟩ :: above) hd'
        refine ⟨ts, by simp only [turns, hcell, ht], ?_⟩
        obtain ⟨hgd, _⟩ := grows_put wf d
        rw [hb, put_cell, put_of_denotes hgd.wellFormed (h₂.extend hgd.extend)]
        rfl
      | tail =>
        rw [Noun.replace] at hr
        obtain ⟨d, hd', rfl⟩ := Option.map_eq_some_iff.mp hr
        obtain ⟨ts, ht, hb⟩ := ih h₂ (⟨.tail, head⟩ :: above) hd'
        refine ⟨ts, by simp only [turns, hcell, ht], ?_⟩
        rw [hb, put_cell, put_of_denotes wf h₁]
        rfl

/-- What an edit leaves: the edited noun, stored, or nothing if there is no such slot. -/
def putEdit (g : Graph) : Option Noun → Option NodeId × Graph
  | some c => (some (g.put c).1, (g.put c).2)
  | none => (none, g)

theorem Denotes.editAlong (wf : g.WellFormed) {root value : NodeId} {a b : Noun}
    (hd : g.Denotes root a) (hv : g.Denotes value b) (way : List Side) :
    g.editAlong root way value = g.putEdit (Noun.replace b a way) := by
  cases hr : Noun.replace b a way with
  | none =>
    rw [Graph.editAlong, hd.turns_of_replace [] way hr]
    rfl
  | some c =>
    obtain ⟨ts, ht, hb⟩ := hd.rebuild wf hv [] way hr
    simp only [Graph.editAlong, ht, hb, Graph.rebuild, putEdit]

theorem Denotes.edit (wf : g.WellFormed) {root value : NodeId} {a b : Noun}
    (hd : g.Denotes root a) (hv : g.Denotes value b) (axis : Nat) :
    g.edit root axis value = g.putEdit (a.edit? axis b) := by
  unfold Graph.edit Noun.edit?
  cases Axis.path axis with
  | none => rfl
  | some way => exact hd.editAlong wf hv way

theorem grows_edit (wf : g.WellFormed) {root value : NodeId} (hroot : g.Stored root)
    (hvalue : g.Stored value) (axis : Nat) : g.Grows (g.edit root axis value).2 := by
  obtain ⟨a, ha⟩ := exists_denotes wf hroot
  obtain ⟨b, hb⟩ := exists_denotes wf hvalue
  rw [ha.edit wf hb axis]
  cases a.edit? axis b with
  | none => exact .refl wf
  | some c => exact (grows_put wf c).1

theorem stored_edit (wf : g.WellFormed) {root value id : NodeId} (hroot : g.Stored root)
    (hvalue : g.Stored value) {axis : Nat} (hid : (g.edit root axis value).1 = some id) :
    (g.edit root axis value).2.Stored id := by
  obtain ⟨a, ha⟩ := exists_denotes wf hroot
  obtain ⟨b, hb⟩ := exists_denotes wf hvalue
  rw [ha.edit wf hb axis] at hid ⊢
  cases hc : a.edit? axis b with
  | none =>
    rw [hc] at hid
    cases hid
  | some c =>
    rw [hc] at hid
    cases hid
    exact (grows_put wf c).2.stored

theorem edit_again {h : Graph} (wf : g.WellFormed) (wf' : h.WellFormed) {root value : NodeId}
    (hroot : g.Stored root) (hvalue : g.Stored value) {axis : Nat}
    (hext : (g.edit root axis value).2.Extends h) :
    h.edit root axis value = ((g.edit root axis value).1, h) := by
  have hgrow := (grows_edit wf hroot hvalue axis).extend.trans hext
  obtain ⟨a, ha⟩ := exists_denotes wf hroot
  obtain ⟨b, hb⟩ := exists_denotes wf hvalue
  rw [ha.edit wf hb axis] at hext ⊢
  rw [(ha.extend hgrow).edit wf' (hb.extend hgrow) axis]
  cases hc : a.edit? axis b with
  | none => rfl
  | some c =>
    rw [hc] at hext
    have hd := (grows_put wf c).2.extend hext
    simp only [putEdit, put_of_denotes wf' hd]

/-! ## Axes in words -/

theorem wordSlot?_eq (g : Graph) (root : NodeId) (axis : UInt64) :
    g.wordSlot? root axis = g.slot? root axis.toNat := by
  rw [wordSlot?, slot?, Axis.wordPath_eq]

theorem Denotes.wordSlot?_some {root : NodeId} {a b : Noun} (hd : g.Denotes root a)
    {axis : UInt64} (ha : a.slot? axis.toNat = some b) :
    ∃ id, g.wordSlot? root axis = some id ∧ g.Denotes id b := by
  rw [wordSlot?_eq]
  exact hd.slot?_some ha

theorem wordSlot?_whole (g : Graph) (root : NodeId) : g.wordSlot? root Axis.whole = some root := by
  have hone : Axis.whole.toNat = 1 := rfl
  rw [wordSlot?_eq, hone, slot?, Axis.path_one]
  rfl

theorem wordEdit_eq (g : Graph) (root : NodeId) (axis : UInt64) (value : NodeId) :
    g.wordEdit root axis value = g.edit root axis.toNat value := by
  rw [wordEdit, edit, Axis.wordPath_eq]

end NockDispatch.Graph
