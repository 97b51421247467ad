import NockDispatch.Proofs.Graph.Lookup
import NockDispatch.Proofs.Nest.Call

/-!
# Gates that are nest calls

Which gates are nest calls, and what is wrong with any other, can be said by shapes alone. The
slots of a gate are looked up one by one, but they hang together: a gate with a first half of its
sample has the second half and a context too. So of the three axes only the first is ever reported
missing. The same four nouns given one by one pass and fail in the same way.
-/

namespace NockDispatch.Nest.Args

variable {g : Graph} {gate van sut tel ref : NodeId}

/-- The gate is `[battery [[tel ref] van]]`. -/
def Carries (g : Graph) (gate tel ref van : NodeId) : Prop :=
  ∃ battery payload sample, g.cell? gate = some (battery, payload) ∧
    g.cell? payload = some (sample, van) ∧ g.cell? sample = some (tel, ref)

/-- `van` is `[battery [sut context]]`. -/
def Holds (g : Graph) (van sut : NodeId) : Prop :=
  ∃ battery payload context, g.cell? van = some (battery, payload) ∧
    g.cell? payload = some (sut, context)

def IsLoobean (g : Graph) (tel : NodeId) : Prop :=
  g.atom? tel = some 0 ∨ g.atom? tel = some 1

/-- What a gate is worth as a nest call: its four nouns, or the first thing that is wrong with it. -/
inductive Verdict (g : Graph) (gate : NodeId) : Except CallError Args → Prop
  | missingAxis : (∀ tel ref van, ¬ Carries g gate tel ref van) →
      Verdict g gate (.error (.missingAxis 12))
  | telNotAtom {tel ref van : NodeId} : Carries g gate tel ref van → (g.cell? tel).isSome →
      Verdict g gate (.error .telNotAtom)
  | telOutOfRange {tel ref van : NodeId} {value : Nat} : Carries g gate tel ref van →
      g.atom? tel = some value → 1 < value → Verdict g gate (.error .telOutOfRange)
  | missingSubject {tel ref van : NodeId} : Carries g gate tel ref van → IsLoobean g tel →
      (∀ sut, ¬ Holds g van sut) → Verdict g gate (.error .missingSubject)
  | ok {tel ref van sut : NodeId} : Carries g gate tel ref van → IsLoobean g tel → Holds g van sut →
      Verdict g gate (.ok ⟨van, sut, tel, ref⟩)

/-! ## Shapes and slots -/

theorem Carries.slots (hc : Carries g gate tel ref van) :
    g.wordSlot? gate Axis.sampleHead = some tel ∧ g.wordSlot? gate Axis.sampleTail = some ref ∧
      g.wordSlot? gate Axis.context = some van := by
  obtain ⟨battery, payload, sample, hgate, hpayload, hsample⟩ := hc
  simp [Graph.wordSlot?_sampleHead, Graph.wordSlot?_sampleTail, Graph.wordSlot?_context,
    Graph.wordSlot?_sample, Graph.slot?_three, hgate, hpayload, hsample]

theorem exists_carries (hs : g.wordSlot? gate Axis.sampleHead = some tel) :
    ∃ ref van, Carries g gate tel ref van := by
  rw [Graph.wordSlot?_sampleHead, Graph.wordSlot?_sample, Graph.slot?_three] at hs
  obtain ⟨_, hsample, hs⟩ := Option.bind_eq_some_iff.mp hs
  obtain ⟨⟨_, ref⟩, htel, rfl⟩ := Option.map_eq_some_iff.mp hs
  obtain ⟨_, hpayload, hsample⟩ := Option.bind_eq_some_iff.mp hsample
  obtain ⟨⟨_, van⟩, hvan, rfl⟩ := Option.map_eq_some_iff.mp hsample
  obtain ⟨⟨battery, _⟩, hgate, rfl⟩ := Option.map_eq_some_iff.mp hpayload
  exact ⟨ref, van, battery, _, _, hgate, hvan, htel⟩

theorem sampleHead_eq_none_iff :
    g.wordSlot? gate Axis.sampleHead = none ↔ ∀ tel ref van, ¬ Carries g gate tel ref van := by
  constructor
  · intro hnone tel ref van hc
    rw [hc.slots.1] at hnone
    cases hnone
  · intro hno
    cases hs : g.wordSlot? gate Axis.sampleHead with
    | none => rfl
    | some tel =>
      obtain ⟨ref, van, hc⟩ := exists_carries hs
      exact absurd hc (hno tel ref van)

theorem holds_iff : Holds g van sut ↔ g.wordSlot? van Axis.sample = some sut := by
  rw [Graph.wordSlot?_sample, Graph.slot?_three]
  constructor
  · rintro ⟨battery, payload, context, hvan, hpayload⟩
    simp [hvan, hpayload]
  · intro hs
    obtain ⟨payload, hvan, hs⟩ := Option.bind_eq_some_iff.mp hs
    obtain ⟨⟨_, context⟩, hpayload, rfl⟩ := Option.map_eq_some_iff.mp hs
    obtain ⟨⟨battery, _⟩, hgate, rfl⟩ := Option.map_eq_some_iff.mp hvan
    exact ⟨battery, _, context, hgate, hpayload⟩

theorem slots?_iff :
    g.slots? gate [Axis.sampleHead, Axis.sampleTail, Axis.context] = some [tel, ref, van] ↔
      Carries g gate tel ref van := by
  constructor
  · intro hs
    cases hhead : g.wordSlot? gate Axis.sampleHead with
    | none => simp [Graph.slots?, hhead] at hs
    | some tel =>
      obtain ⟨ref, van, hc⟩ := exists_carries hhead
      obtain ⟨-, href, hvan⟩ := hc.slots
      simp only [Graph.slots?, List.mapM_cons, List.mapM_nil, hhead, href, hvan, Option.bind_eq_bind,
        Option.bind_some, Option.pure_def, Option.some.injEq, List.cons.injEq, and_true] at hs
      obtain ⟨rfl, rfl, rfl⟩ := hs
      exact hc
  · intro hc
    obtain ⟨htel, href, hvan⟩ := hc.slots
    simp [Graph.slots?, htel, href, hvan]

/-! ## What is taken from a gate -/

theorem ofGate_of_carries (hc : Carries g gate tel ref van) :
    ofGate g gate = (do
      checkTel g tel
      let sut ← sampleOf g van
      return ⟨van, sut, tel, ref⟩) := by
  obtain ⟨htel, href, hvan⟩ := hc.slots
  rw [ofGate, slotOf, slotOf, slotOf, htel, href, hvan]
  rfl

theorem ofGate_of_not_carries (hno : ∀ tel ref van, ¬ Carries g gate tel ref van) :
    ofGate g gate = .error (.missingAxis 12) := by
  rw [ofGate, slotOf, sampleHead_eq_none_iff.mpr hno]
  rfl

theorem checkTel_of_cell (ht : (g.cell? tel).isSome) : checkTel g tel = .error .telNotAtom := by
  have hatom : g.atom? tel = none := by
    unfold Graph.cell? at ht
    unfold Graph.atom?
    split at ht
    · next hn => rw [hn]
    · cases ht
  rw [checkTel, hatom]

theorem checkTel_of_loobean (ht : IsLoobean g tel) : checkTel g tel = .ok () := by
  rcases ht with ht | ht <;> rw [checkTel, ht] <;> rfl

theorem checkTel_of_lt {value : Nat} (ht : g.atom? tel = some value) (hlt : 1 < value) :
    checkTel g tel = .error .telOutOfRange := by
  rw [checkTel, ht]
  exact if_neg (Nat.not_le.mpr hlt)

theorem sampleOf_of_holds (hh : Holds g van sut) : sampleOf g van = .ok sut := by
  rw [sampleOf, holds_iff.mp hh]

theorem sampleOf_of_not_holds (hno : ∀ sut, ¬ Holds g van sut) :
    sampleOf g van = .error .missingSubject := by
  have hnone : g.wordSlot? van Axis.sample = none := by
    rw [Option.eq_none_iff_forall_ne_some]
    exact fun sut hs => hno sut (holds_iff.mpr hs)
  rw [sampleOf, hnone]

theorem Verdict.eq {answer : Except CallError Args} (hv : Verdict g gate answer) :
    ofGate g gate = answer := by
  cases hv with
  | missingAxis hno => exact ofGate_of_not_carries hno
  | telNotAtom hc ht =>
    rw [ofGate_of_carries hc, checkTel_of_cell ht]
    rfl
  | telOutOfRange hc ht hlt =>
    rw [ofGate_of_carries hc, checkTel_of_lt ht hlt]
    rfl
  | missingSubject hc ht hno =>
    rw [ofGate_of_carries hc, checkTel_of_loobean ht, sampleOf_of_not_holds hno]
    rfl
  | ok hc ht hh =>
    rw [ofGate_of_carries hc, checkTel_of_loobean ht, sampleOf_of_holds hh]
    rfl

theorem cell_or_atom (hs : g.Stored tel) :
    (g.cell? tel).isSome ∨ ∃ value, g.atom? tel = some value := by
  obtain ⟨node, hn⟩ := Option.isSome_iff_exists.mp (Graph.node?_isSome_iff.mpr hs)
  cases node with
  | atom value => exact .inr ⟨value, by rw [Graph.atom?, hn]⟩
  | cell head tail => exact .inl (by rw [Graph.cell?, hn]; rfl)

theorem exists_verdict (wf : g.WellFormed) (hgate : g.Stored gate) :
    ∃ answer, Verdict g gate answer := by
  by_cases hno : ∀ tel ref van, ¬ Carries g gate tel ref van
  · exact ⟨_, .missingAxis hno⟩
  simp only [not_forall, not_not] at hno
  obtain ⟨tel, ref, van, hc⟩ := hno
  rcases cell_or_atom (Graph.stored_wordSlot? wf hgate hc.slots.1) with ht | ⟨value, ht⟩
  · exact ⟨_, .telNotAtom hc ht⟩
  by_cases hlt : 1 < value
  · exact ⟨_, .telOutOfRange hc ht hlt⟩
  have hl : IsLoobean g tel := by
    rw [IsLoobean, ht, Option.some.injEq, Option.some.injEq]
    omega
  by_cases hh : ∃ sut, Holds g van sut
  · obtain ⟨sut, hh⟩ := hh
    exact ⟨_, .ok hc hl hh⟩
  · exact ⟨_, .missingSubject hc hl fun sut hs => hh ⟨sut, hs⟩⟩

theorem ofGate_eq_iff (wf : g.WellFormed) (hgate : g.Stored gate)
    (answer : Except CallError Args) : ofGate g gate = answer ↔ Verdict g gate answer := by
  constructor
  · rintro rfl
    obtain ⟨answer, hv⟩ := exists_verdict wf hgate
    rwa [hv.eq]
  · exact Verdict.eq

/-! ## The nouns one by one -/

theorem ofParts_of_carries (hc : Carries g gate tel ref van)
    (hsut : g.wordSlot? van Axis.sample = some sut) :
    ofParts g van sut tel ref = ofGate g gate := by
  rw [ofGate_of_carries hc, ofParts, sampleOf, hsut]
  rfl

/-- Where `van` has no sample, `tel` is what is blamed first, and then the missing sample. -/
theorem exists_error_of_missing (hc : Carries g gate tel ref van)
    (hsut : g.wordSlot? van Axis.sample = none) :
    ∃ error, ofGate g gate = .error error ∧ ∀ sut, ofParts g van sut tel ref = .error error := by
  have hsample : sampleOf g van = .error .missingSubject := by rw [sampleOf, hsut]
  rw [ofGate_of_carries hc]
  simp only [ofParts, hsample]
  cases checkTel g tel with
  | ok => exact ⟨.missingSubject, rfl, fun _ => rfl⟩
  | error error => exact ⟨error, rfl, fun _ => rfl⟩

/-- A gate is taken for a nest call exactly when it has the shape of one, and the first fault of
any other is named; that it lacks an axis is only ever said of axis 12, and it is said when the
slots of `tel`, `ref` and `van` cannot all be read. The nouns of a gate, given one by one, pass or
fail as the gate does. -/
theorem ofGate_verdict (wf : g.WellFormed) (hgate : g.Stored gate) :
    (∀ answer, ofGate g gate = answer ↔ Verdict g gate answer) ∧
    ∀ tel ref van,
      (g.slots? gate [Axis.sampleHead, Axis.sampleTail, Axis.context] = some [tel, ref, van] ↔
        Carries g gate tel ref van) ∧
      (Carries g gate tel ref van →
        (∀ sut, g.wordSlot? van Axis.sample = some sut →
          ofParts g van sut tel ref = ofGate g gate) ∧
        (g.wordSlot? van Axis.sample = none →
          ∃ error, ofGate g gate = .error error ∧
            ∀ sut, ofParts g van sut tel ref = .error error)) :=
  ⟨ofGate_eq_iff wf hgate, fun _ _ _ => ⟨slots?_iff, fun hc =>
    ⟨fun _ => ofParts_of_carries hc, exists_error_of_missing hc⟩⟩⟩

/-- Of `[0 [1 8] 9 7 10]` the four nouns are taken. With 2 in the place of the 1, and with a `van`
that is an atom, it is `tel` that is blamed, whatever is given for `sut`. -/
theorem ofGate_verdict_gates :
    let good := Noun.cell (.atom 0) (.cell (.cell (.atom 1) (.atom 8))
      (.cell (.atom 9) (.cell (.atom 7) (.atom 10))))
    let bad := Noun.cell (.atom 0) (.cell (.cell (.atom 2) (.atom 8)) (.atom 9))
    let first := (Graph.empty ⟨0⟩).put good
    let second := first.2.put bad
    let g := second.2
    g.WellFormed ∧ g.Stored first.1 ∧ g.Stored second.1 ∧
    (∃ van sut tel ref, Carries g first.1 tel ref van ∧ IsLoobean g tel ∧ Holds g van sut ∧
      ofGate g first.1 = .ok ⟨van, sut, tel, ref⟩ ∧
      ofParts g van sut tel ref = ofGate g first.1) ∧
    ∃ van tel ref, Carries g second.1 tel ref van ∧ g.wordSlot? van Axis.sample = none ∧
      ofGate g second.1 = .error .telOutOfRange ∧
      ∀ sut, ofParts g van sut tel ref = .error .telOutOfRange := by
  intro good bad first second g
  obtain ⟨hfirst, hgood⟩ := Graph.grows_put (Graph.wellFormed_empty ⟨0⟩) good
  obtain ⟨hgrow, hbad⟩ := Graph.grows_put hfirst.wellFormed bad
  have wf : g.WellFormed := hgrow.wellFormed
  replace hgood : g.Denotes first.1 good := hgood.extend hgrow.extend
  replace hbad : g.Denotes second.1 bad := hbad
  refine ⟨wf, hgood.stored, hbad.stored, ?_, ?_⟩
  · obtain ⟨hanswer, hparts⟩ := ofGate_verdict wf hgood.stored
    obtain ⟨_, payload, hgate, -, hpayload⟩ := hgood.cell?_cell
    obtain ⟨sample, van, hcell, hsample, hvan⟩ := hpayload.cell?_cell
    obtain ⟨tel, ref, hpair, htel, -⟩ := hsample.cell?_cell
    obtain ⟨_, rest, hcore, -, hrest⟩ := hvan.cell?_cell
    obtain ⟨sut, _, hsut, -, -⟩ := hrest.cell?_cell
    have hc : Carries g first.1 tel ref van := ⟨_, payload, sample, hgate, hcell, hpair⟩
    have hl : IsLoobean g tel := .inr htel.atom?_atom
    have hh : Holds g van sut := ⟨_, rest, _, hcore, hsut⟩
    exact ⟨van, sut, tel, ref, hc, hl, hh, (hanswer _).mpr (.ok hc hl hh),
      ((hparts tel ref van).2 hc).1 sut (holds_iff.mp hh)⟩
  · obtain ⟨hanswer, hparts⟩ := ofGate_verdict wf hbad.stored
    obtain ⟨_, payload, hgate, -, hpayload⟩ := hbad.cell?_cell
    obtain ⟨sample, van, hcell, hsample, hvan⟩ := hpayload.cell?_cell
    obtain ⟨tel, ref, hpair, htel, -⟩ := hsample.cell?_cell
    have hc : Carries g second.1 tel ref van := ⟨_, payload, sample, hgate, hcell, hpair⟩
    have hnone : g.wordSlot? van Axis.sample = none := by
      rw [Graph.wordSlot?_eq]
      exact hvan.slot?_none rfl
    have herror := (hanswer _).mpr (.telOutOfRange hc htel.atom?_atom (by decide))
    obtain ⟨error, hsame, hall⟩ := ((hparts tel ref van).2 hc).2 hnone
    cases hsame.symm.trans herror
    exact ⟨van, tel, ref, hc, hnone, herror, hall⟩

end NockDispatch.Nest.Args
