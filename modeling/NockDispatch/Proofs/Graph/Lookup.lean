import NockDispatch.Proofs.Graph.Update
import NockDispatch.Proofs.Noun.Composition

/-!
# Slots by halves

A way down is read from the highest digit of an axis. The rules of `/` start at the lowest: the
slots at `2 n` and `2 n + 1` are the two halves of the slot at `n`. Both give the same slots, and
they do so at every width, so that an axis in a word reaches what the same number reaches.
-/

namespace NockDispatch.Graph

theorem child?_head (g : Graph) (id : NodeId) :
    g.child? id .head = (g.cell? id).map Prod.fst := by
  unfold child?
  cases g.cell? id <;> rfl

theorem child?_tail (g : Graph) (id : NodeId) :
    g.child? id .tail = (g.cell? id).map Prod.snd := by
  unfold child?
  cases g.cell? id <;> rfl

theorem walk_concat (g : Graph) (root : NodeId) (way : List Side) (side : Side) :
    g.walk root (way ++ [side]) = (g.walk root way).bind (g.child? · side) := by
  have hlast : (g.walk · [side]) = (g.child? · side) := by
    funext id
    rw [walk]
    cases g.child? id side <;> rfl
  rw [walk_append, hlast]

theorem slot?_zero (g : Graph) (root : NodeId) : g.slot? root 0 = none := rfl

theorem slot?_step (g : Graph) (root : NodeId) {n : Nat} (hn : n ≠ 0) (bit : Bool) :
    g.slot? root (2 * n + bit.toNat) = (g.slot? root n).bind (g.child? · (Side.ofBit bit)) := by
  rw [slot?, Axis.path_step hn, slot?]
  cases Axis.path n with
  | none => rfl
  | some way => exact g.walk_concat root way (Side.ofBit bit)

theorem slot?_double (g : Graph) (root : NodeId) (n : Nat) :
    g.slot? root (2 * n) = (g.slot? root n).bind fun id => (g.cell? id).map Prod.fst := by
  by_cases hn : n = 0
  · subst hn
    rfl
  · have hstep : g.slot? root (2 * n) = (g.slot? root n).bind (g.child? · .head) :=
      g.slot?_step root hn false
    simpa only [child?_head] using hstep

theorem slot?_double_add_one (g : Graph) (root : NodeId) {n : Nat} (hn : n ≠ 0) :
    g.slot? root (2 * n + 1) = (g.slot? root n).bind fun id => (g.cell? id).map Prod.snd := by
  have hstep : g.slot? root (2 * n + 1) = (g.slot? root n).bind (g.child? · .tail) :=
    g.slot?_step root hn true
  simpa only [child?_tail] using hstep

theorem slot?_join (g : Graph) (root : NodeId) {m n : Nat} (hm : m ≠ 0) (hn : n ≠ 0) :
    g.slot? root (Axis.join m n) = (g.slot? root m).bind (g.slot? · n) := by
  obtain ⟨upper, lower, hupper, hlower, hjoin⟩ := Axis.exists_path_join hm hn
  simp only [slot?, hupper, hlower, hjoin, Option.bind_some]
  exact g.walk_append root upper lower

/-! ## The slots of a gate -/

theorem slot?_three (g : Graph) (root : NodeId) :
    g.slot? root 3 = (g.cell? root).map Prod.snd := by
  have hstep := g.slot?_double_add_one root Nat.one_ne_zero
  rwa [g.slot?_one, Option.bind_some] at hstep

theorem wordSlot?_sample (g : Graph) (root : NodeId) :
    g.wordSlot? root Axis.sample =
      (g.slot? root 3).bind fun id => (g.cell? id).map Prod.fst := by
  rw [wordSlot?_eq]
  exact g.slot?_double root 3

theorem wordSlot?_context (g : Graph) (root : NodeId) :
    g.wordSlot? root Axis.context =
      (g.slot? root 3).bind fun id => (g.cell? id).map Prod.snd := by
  rw [wordSlot?_eq]
  exact g.slot?_double_add_one root (by decide : 3 ≠ 0)

theorem wordSlot?_sampleHead (g : Graph) (root : NodeId) :
    g.wordSlot? root Axis.sampleHead =
      (g.wordSlot? root Axis.sample).bind fun id => (g.cell? id).map Prod.fst := by
  rw [wordSlot?_eq, wordSlot?_eq]
  exact g.slot?_double root 6

theorem wordSlot?_sampleTail (g : Graph) (root : NodeId) :
    g.wordSlot? root Axis.sampleTail =
      (g.wordSlot? root Axis.sample).bind fun id => (g.cell? id).map Prod.snd := by
  rw [wordSlot?_eq, wordSlot?_eq]
  exact g.slot?_double_add_one root (by decide : 6 ≠ 0)

/-! ## The published rules -/

theorem Denotes.slot?_isSome {g : Graph} {root : NodeId} {a : Noun} (ha : g.Denotes root a)
    (axis : Nat) : (g.slot? root axis).isSome = (a.slot? axis).isSome := by
  have hslot := ha.slot? axis
  generalize g.slot? root axis = found at hslot
  generalize a.slot? axis = found' at hslot
  cases hslot <;> rfl

/-- The slots of a node are those of its noun by the rules of `/`. -/
theorem Denotes.slot?_iff {g : Graph} {root : NodeId} {a : Noun} (hd : g.Denotes root a)
    (axis : Nat) (b : Noun) :
    (∃ id, g.slot? root axis = some id ∧ g.Denotes id b) ↔ Noun.Slot axis a b := by
  rw [Noun.slot_iff]
  constructor
  · rintro ⟨id, hid, hb⟩
    exact hd.slot?_of_slot?_eq hb hid
  · exact hd.slot?_some

/-- The rules of `/` hold of the slots of a node at every axis, and reading or replacing a slot
does the same by an axis in a word as by its number. -/
theorem slot_rules (g : Graph) (root : NodeId) :
    g.slot? root 0 = none ∧ g.slot? root 1 = some root ∧
    (∀ n, g.slot? root (2 * n) = (g.slot? root n).bind fun id => (g.cell? id).map Prod.fst) ∧
    (∀ n, n ≠ 0 →
      g.slot? root (2 * n + 1) = (g.slot? root n).bind fun id => (g.cell? id).map Prod.snd) ∧
    (∀ a, g.Denotes root a → ∀ axis b,
      (∃ id, g.slot? root axis = some id ∧ g.Denotes id b) ↔ Noun.Slot axis a b) ∧
    ∀ axis : UInt64, g.wordSlot? root axis = g.slot? root axis.toNat ∧
      ∀ value, g.wordEdit root axis value = g.edit root axis.toNat value := by
  refine ⟨g.slot?_zero root, g.slot?_one root, g.slot?_double root, ?_, ?_, ?_⟩
  · exact fun n hn => g.slot?_double_add_one root hn
  · exact fun a hd => hd.slot?_iff
  · exact fun axis => ⟨g.wordSlot?_eq root axis, g.wordEdit_eq root axis⟩

/-- A list of 65 zeros that ends in 7. -/
def longList : Noun := (List.replicate 65 (Noun.atom 0)).foldr Noun.cell (.atom 7)

/-- The end of a list of 65 elements is at an axis of 66 digits, and it is the tail of the slot
at the axis of 65 digits. -/
theorem slot_rules_long :
    let stored := (empty ⟨0⟩).put longList
    let g := stored.2
    let root := stored.1
    2 ^ 65 - 1 ≠ 0 ∧
    g.slot? root (2 * (2 ^ 65 - 1) + 1) =
      (g.slot? root (2 ^ 65 - 1)).bind (fun id => (g.cell? id).map Prod.snd) ∧
    g.Denotes root longList ∧
    ∃ id, g.slot? root (2 ^ 66 - 1) = some id ∧ g.Denotes id (.atom 7) := by
  intro stored g root
  obtain ⟨-, hd⟩ := grows_put (wellFormed_empty ⟨0⟩) longList
  obtain ⟨-, -, -, htail, hrule, -⟩ := slot_rules g root
  have hslot : longList.slot? (2 ^ 66 - 1) = some (.atom 7) := by decide +kernel
  exact ⟨by decide, htail _ (by decide), hd, (hrule _ hd _ _).mpr (Noun.slot_iff.mpr hslot)⟩

end NockDispatch.Graph
