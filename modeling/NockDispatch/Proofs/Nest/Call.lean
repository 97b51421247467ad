import NockDispatch.Nest.Call
import NockDispatch.Proofs.Graph.Edit

/-!
# Arguments of nest calls

The four nouns of a nest check, whether they are taken from a gate or given one by one, are
stored in the graph that they are taken from.
-/

namespace NockDispatch

theorem bind_eq_ok {x : Except ε α} {f : α → Except ε β} {b : β} (h : x >>= f = .ok b) :
    ∃ a, x = .ok a ∧ f a = .ok b := by
  cases x with
  | error e => cases h
  | ok a => exact ⟨a, rfl, h⟩

theorem bind_congr_ok {x : Except ε α} {f f' : α → Except ε β} (h : ∀ a, x = .ok a → f a = f' a) :
    x >>= f = x >>= f' := by
  cases x with
  | error e => rfl
  | ok a => exact h a rfl

theorem Graph.stored_wordSlot? {g : Graph} (wf : g.WellFormed) {root id : NodeId} {axis : UInt64}
    (hroot : g.Stored root) (hid : g.wordSlot? root axis = some id) : g.Stored id := by
  obtain ⟨a, ha⟩ := exists_denotes wf hroot
  have hslot := ha.slot? axis.toNat
  rw [← wordSlot?_eq, hid] at hslot
  generalize a.slot? axis.toNat = found at hslot
  cases hslot with
  | some hd => exact hd.stored

namespace Nest.Args

variable {g : Graph}

structure Stored (g : Graph) (args : Args) : Prop where
  van : g.Stored args.van
  sut : g.Stored args.sut
  tel : g.Stored args.tel
  ref : g.Stored args.ref

def ids (args : Args) : List NodeId := [args.van, args.sut, args.tel, args.ref]

theorem stored_iff {args : Args} : args.Stored g ↔ ∀ id ∈ args.ids, g.Stored id := by
  simp only [ids, List.forall_mem_cons, List.not_mem_nil, false_implies, implies_true, and_true]
  exact ⟨fun h => ⟨h.van, h.sut, h.tel, h.ref⟩, fun ⟨hvan, hsut, htel, href⟩ =>
    ⟨hvan, hsut, htel, href⟩⟩

/-- The nouns are fit for a nest check, as they are once they were taken from the graph. -/
def TakenFrom (g : Graph) (args : Args) : Prop :=
  (ofParts g args.van args.sut args.tel args.ref).isOk = true

instance (g : Graph) (args : Args) : Decidable (args.TakenFrom g) :=
  inferInstanceAs (Decidable (_ = true))

theorem ofParts_eq_ok {van sut tel ref : NodeId} {args : Args}
    (h : ofParts g van sut tel ref = .ok args) : args = ⟨van, sut, tel, ref⟩ := by
  unfold ofParts at h
  obtain ⟨_, _, h⟩ := bind_eq_ok h
  obtain ⟨_, _, h⟩ := bind_eq_ok h
  cases h
  rfl

theorem takenFrom_iff {args : Args} :
    args.TakenFrom g ↔ ofParts g args.van args.sut args.tel args.ref = .ok args := by
  constructor
  · intro h
    unfold TakenFrom at h
    cases hargs : ofParts g args.van args.sut args.tel args.ref with
    | error e =>
      rw [hargs] at h
      cases h
    | ok args' => rw [ofParts_eq_ok hargs]
  · intro h
    rw [TakenFrom, h]
    rfl

theorem slotOf_eq_ok {gate id : NodeId} {axis : UInt64} (h : slotOf g gate axis = .ok id) :
    g.wordSlot? gate axis = some id := by
  unfold slotOf at h
  split at h
  · next found =>
    cases h
    exact found
  · cases h

theorem sampleOf_eq_ok {van sut : NodeId} (h : sampleOf g van = .ok sut) :
    g.wordSlot? van Axis.sample = some sut := by
  unfold sampleOf at h
  split at h
  · next found =>
    cases h
    exact found
  · cases h

theorem stored_ofGate (wf : g.WellFormed) {gate : NodeId} (hgate : g.Stored gate) {args : Args}
    (h : ofGate g gate = .ok args) : args.Stored g := by
  unfold ofGate at h
  obtain ⟨tel, htel, h⟩ := bind_eq_ok h
  obtain ⟨ref, href, h⟩ := bind_eq_ok h
  obtain ⟨van, hvan, h⟩ := bind_eq_ok h
  obtain ⟨_, _, h⟩ := bind_eq_ok h
  obtain ⟨sut, hsut, h⟩ := bind_eq_ok h
  cases h
  have hstored := Graph.stored_wordSlot? wf hgate (slotOf_eq_ok hvan)
  exact ⟨hstored, Graph.stored_wordSlot? wf hstored (sampleOf_eq_ok hsut),
    Graph.stored_wordSlot? wf hgate (slotOf_eq_ok htel),
    Graph.stored_wordSlot? wf hgate (slotOf_eq_ok href)⟩

/-! ## Arguments in a graph that has grown -/

variable {h : Graph}

theorem slotOf_extend (hgh : g.Extends h) {gate : NodeId} {a : Noun} (hd : g.Denotes gate a)
    (axis : UInt64) : slotOf h gate axis = slotOf g gate axis := by
  rw [slotOf, slotOf, Graph.wordSlot?_eq, Graph.wordSlot?_eq, hd.slot?_extend hgh]

theorem sampleOf_extend (hgh : g.Extends h) {van : NodeId} {a : Noun} (hd : g.Denotes van a) :
    sampleOf h van = sampleOf g van := by
  rw [sampleOf, sampleOf, Graph.wordSlot?_eq, Graph.wordSlot?_eq, hd.slot?_extend hgh]

theorem checkTel_extend (hgh : g.Extends h) {tel : NodeId} {a : Noun} (hd : g.Denotes tel a) :
    checkTel h tel = checkTel g tel := by
  cases a with
  | atom n => rw [checkTel, checkTel, hd.atom?_atom, (hd.extend hgh).atom?_atom]
  | cell b c => rw [checkTel, checkTel, hd.atom?_cell, (hd.extend hgh).atom?_cell]

theorem ofGate_extend (wf : g.WellFormed) (hgh : g.Extends h) {gate : NodeId}
    (hgate : g.Stored gate) : ofGate h gate = ofGate g gate := by
  obtain ⟨a, ha⟩ := Graph.exists_denotes wf hgate
  unfold ofGate
  rw [slotOf_extend hgh ha, slotOf_extend hgh ha, slotOf_extend hgh ha]
  apply bind_congr_ok
  intro tel htel
  apply bind_congr_ok
  intro ref _
  apply bind_congr_ok
  intro van hvan
  obtain ⟨b, hb⟩ := Graph.exists_denotes wf (Graph.stored_wordSlot? wf hgate (slotOf_eq_ok htel))
  obtain ⟨c, hc⟩ := Graph.exists_denotes wf (Graph.stored_wordSlot? wf hgate (slotOf_eq_ok hvan))
  rw [checkTel_extend hgh hb, sampleOf_extend hgh hc]

theorem ofParts_extend (wf : g.WellFormed) (hgh : g.Extends h) {van tel : NodeId}
    (hvan : g.Stored van) (htel : g.Stored tel) (sut ref : NodeId) :
    ofParts h van sut tel ref = ofParts g van sut tel ref := by
  obtain ⟨a, ha⟩ := Graph.exists_denotes wf hvan
  obtain ⟨b, hb⟩ := Graph.exists_denotes wf htel
  unfold ofParts
  rw [checkTel_extend hgh hb, sampleOf_extend hgh ha]

end Nest.Args
end NockDispatch
