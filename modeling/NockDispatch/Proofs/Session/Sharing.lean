import NockDispatch.Proofs.Session.Visits

/-!
# Who may share a memo

Two ways to ask under one key for different things. Dispatchers with settings of their own
share the entries of a memo, though its keys do not name the nest arm and the limits. And a
core without the slot at the key axis is kept under itself, where another core may be kept
that has the first one in that slot. Each time the answers are the direct ones just when no
two requests of this kind differ.
-/

namespace NockDispatch

open Nest

variable {dispatchers : Nat → Settings} {g : Graph} {u v : Visit}

namespace Visit

theorem key_ok {args : Args} (hargs : v.args = .ok args) :
    v.key = .ok (keyOf v.graph v.settings.keyAxis args) := by
  rw [key, hargs]
  rfl

theorem key_eq_ok {key : Memo.Key} (hkey : v.key = .ok key) :
    ∃ args, v.args = .ok args ∧ key = keyOf v.graph v.settings.keyAxis args := by
  cases hargs : v.args with
  | error e =>
    rw [key_error hargs] at hkey
    cases hkey
  | ok args =>
    rw [key_ok hargs] at hkey
    cases hkey
    exact ⟨args, rfl, rfl⟩

/-- One request to dispatchers that agree has one outcome, however the graph has grown. -/
theorem Sound.same {args : Args} (hu : u.Sound dispatchers) (hv : v.Sound dispatchers)
    (hext : u.graph.Extends v.graph) (hs : u.settings = v.settings) (hargs : u.args = .ok args)
    (hargs' : v.args = .ok args) : SameOutcome u.direct v.direct := by
  obtain ⟨terms, hd⟩ := (hu.stored hargs).exists_denotes hu.wellFormed
  rw [hu.direct hargs, hv.direct hargs', hs]
  exact ⟨_, means_compute hu.wellFormed hd, means_compute hv.wellFormed (hd.extend hext)⟩

theorem Sound.means {args : Args} {terms : Terms} (hv : v.Sound dispatchers)
    (hargs : v.args = .ok args) (hd : args.Denotes v.graph terms) :
    Means v.direct (terms.verdict v.settings.limits v.settings.nestArm) := by
  rw [hv.direct hargs]
  exact means_compute hv.wellFormed hd

/-- A visit to the dispatcher `d` for the given nouns, on a graph that has grown from `g`. -/
structure AsksFor (dispatchers : Nat → Settings) (g : Graph) (d : Nat) (x : Args) (terms : Terms)
    (v : Visit) : Prop where
  settings : v.settings = dispatchers d
  args : v.args = .ok x
  extends_graph : g.Extends v.graph
  means : Means v.direct (terms.verdict (dispatchers d).limits (dispatchers d).nestArm)

end Visit

/-- Two requests, one after the other, are two visits. -/
theorem Errand.visits_pair (dispatchers : Nat → Settings)
    (hc : ∀ d, (dispatchers d).cache = true) (wf : g.WellFormed) (d e : Nat)
    {x y : Args} {s t : Terms} (hx : x.Denotes g s) (hs : s.Fit) (hy : y.Denotes g t) (ht : t.Fit) :
    ∃ u v, visits dispatchers .empty g [.ask d (.nest x), .ask e (.nest y)] = some [u, v] ∧
      u.AsksFor dispatchers g d x s ∧ v.AsksFor dispatchers g e y t := by
  obtain ⟨u, v, h, hu, hua, hv, hva⟩ := visits_two dispatchers wf .empty d e hx hs hy ht
  obtain ⟨hsound, _⟩ := visits_sound hc wf h
  obtain ⟨hsu, hextu⟩ := hsound u (by simp)
  obtain ⟨hsv, hextv⟩ := hsound v (by simp)
  have hfirst := hsu.means hua (hx.extend hextu)
  have hsecond := hsv.means hva (hy.extend hextv)
  rw [hu] at hfirst
  rw [hv] at hsecond
  exact ⟨u, v, h, ⟨hu, hua, hextu, hfirst⟩, ⟨hv, hva, hextv, hsecond⟩⟩

/-- Two requests under one key, the first one with a product that the second one does not have. -/
theorem Errand.misanswers (hc : ∀ d, (dispatchers d).cache = true) (wf : g.WellFormed)
    {errands : List Errand} (h : visits dispatchers .empty g errands = some [u, v])
    {key : Memo.Key} (hkey : u.key = .ok key) (hkey' : v.key = .ok key) {a : Noun}
    {o : Except NestError Noun} (hu : Means u.direct (.ok a)) (hv : Means v.direct o)
    (hne : o ≠ .ok a) : ∃ w ∈ [u, v], w.answer ≠ w.direct.1 := by
  apply Classical.byContradiction
  intro hnone
  have hall : ∀ w ∈ [u, v], w.answer = w.direct.1 := fun w hw =>
    Classical.byContradiction fun hw' => hnone ⟨w, hw, hw'⟩
  have hagrees := (answers_direct_iff_agree hc wf h).mp hall
  obtain ⟨p, hp⟩ := hu.eq_ok
  have hsame : SameOutcome u.direct v.direct :=
    (List.pairwise_cons.mp hagrees).1 v (by simp) key p hkey hkey' hp
  exact hne (hv.functional (hsame.means hu))

/-- A formula that gives a gate, which answers `n` whatever it is asked. -/
def Noun.constant (n : Nat) : Noun :=
  .cell (.atom 1) (.triple (.cell (.atom 1) (.atom n)) (.cell (.atom 0) (.atom 0)) (.atom 0))

/-! ## Dispatchers with settings of their own -/

/-- Dispatchers that share a memo answer as their direct entry points do just when, of any two
requests for the same nouns, the later one has the product of the earlier one, if there is
one. -/
theorem shared_memo_direct_iff (wf : g.WellFormed) (hc : ∀ d, (dispatchers d).cache = true)
    (hk : ∀ d, (dispatchers d).keyAxis = Axis.whole) {errands : List Errand} {vs : List Visit}
    (h : Errand.visits dispatchers .empty g errands = some vs) :
    (∀ v ∈ vs, v.answer = v.direct.1) ↔
      vs.Pairwise fun u v => ∀ args p, u.args = .ok args → v.args = .ok args →
        u.direct.1 = .ok p → SameOutcome u.direct v.direct := by
  obtain ⟨hsound, _⟩ := Errand.visits_sound hc wf h
  have hwhole : ∀ v ∈ vs, v.settings.keyAxis = Axis.whole := by
    intro v hv
    obtain ⟨d, hd⟩ := (hsound v hv).1.settings
    rw [hd, hk]
  rw [Errand.answers_direct_iff_agree hc wf h]
  apply List.Pairwise.iff_of_mem
  intro u v hu hv
  constructor
  · intro hagrees args p hargs hargs' hp
    have hkey := Visit.key_ok hargs
    have hkey' := Visit.key_ok hargs'
    rw [hwhole u hu] at hkey
    rw [hwhole v hv] at hkey'
    exact hagrees _ p hkey hkey' hp
  · intro hall key p hkey hkey' hp
    obtain ⟨args, hargs, rfl⟩ := Visit.key_eq_ok hkey
    obtain ⟨args', hargs', heq⟩ := Visit.key_eq_ok hkey'
    rw [hwhole u hu, hwhole v hv] at heq
    have hsame := congrArg keyArgs heq
    rw [keyArgs_keyOf_whole, keyArgs_keyOf_whole] at hsame
    subst hsame
    exact hall args p hargs hargs' hp

/-- A core with an arm that answers 5 and an arm that answers 6. -/
def twoArms : Terms where
  van := .triple (.cell (.constant 5) (.constant 6)) (.atom 7) (.atom 0)
  sut := .atom 7
  tel := .atom 0
  ref := .atom 8

theorem twoArms_fit : twoArms.Fit := ⟨⟨true, rfl⟩, rfl⟩

theorem verdict_first : twoArms.verdict ⟨100, 100⟩ 4 = .ok (.atom 5) := by rfl

theorem verdict_second : twoArms.verdict ⟨100, 100⟩ 5 = .ok (.atom 6) := by rfl

theorem verdict_first_more : twoArms.verdict ⟨200, 100⟩ 4 = .ok (.atom 5) := by rfl

/-- Two dispatchers that differ in their limits, neither of which is reached. -/
theorem shared_memo_direct_limits :
    let placed := twoArms.place (.empty ⟨0⟩)
    let dispatchers d : Settings := ⟨true, 4, Axis.whole, ⟨if d = 0 then 100 else 200, 100⟩⟩
    ∃ vs, Errand.visits dispatchers .empty placed.2
        [.ask 0 (.nest placed.1), .ask 1 (.nest placed.1)] = some vs ∧
      ∀ v ∈ vs, v.answer = v.direct.1 := by
  intro placed dispatchers
  obtain ⟨hgrow, hd⟩ := Terms.grows_place (Graph.wellFormed_empty ⟨0⟩) twoArms
  obtain ⟨u, v, h, hu, hv⟩ := Errand.visits_pair dispatchers (fun _ => rfl)
    hgrow.wellFormed 0 1 hd twoArms_fit hd twoArms_fit
  have hsame : SameOutcome u.direct v.direct :=
    ⟨.ok (.atom 5), verdict_first ▸ hu.means, verdict_first_more ▸ hv.means⟩
  refine ⟨_, h, (shared_memo_direct_iff hgrow.wellFormed (fun _ => rfl) (fun _ => rfl) h).mpr ?_⟩
  simp only [List.pairwise_cons, List.mem_singleton, forall_eq, List.not_mem_nil,
    false_implies, implies_true, List.Pairwise.nil, and_true]
  exact fun _ _ _ _ _ => hsame

/-- One dispatcher asks for the first arm, and another one for the second. -/
theorem shared_memo_misanswers :
    let placed := twoArms.place (.empty ⟨0⟩)
    let dispatchers d : Settings := ⟨true, if d = 0 then 4 else 5, Axis.whole, ⟨100, 100⟩⟩
    ∃ vs, Errand.visits dispatchers .empty placed.2
        [.ask 0 (.nest placed.1), .ask 1 (.nest placed.1)] = some vs ∧
      ∃ v ∈ vs, v.answer ≠ v.direct.1 := by
  intro placed dispatchers
  obtain ⟨hgrow, hd⟩ := Terms.grows_place (Graph.wellFormed_empty ⟨0⟩) twoArms
  obtain ⟨u, v, h, hu, hv⟩ := Errand.visits_pair dispatchers (fun _ => rfl)
    hgrow.wellFormed 0 1 hd twoArms_fit hd twoArms_fit
  have hkey := Visit.key_ok hu.args
  have hkey' := Visit.key_ok hv.args
  rw [hu.settings, keyOf, Graph.wordSlot?_whole] at hkey
  rw [hv.settings, keyOf, Graph.wordSlot?_whole] at hkey'
  have hfive : Means u.direct (.ok (.atom 5)) := verdict_first ▸ hu.means
  have hsix : Means v.direct (.ok (.atom 6)) := verdict_second ▸ hv.means
  exact ⟨_, h, Errand.misanswers (fun _ => rfl) hgrow.wellFormed h hkey hkey' hfive hsix (by simp)⟩

/-! ## A key that is a slot of the core -/

namespace Visit

def SameQuestion (a b : Args) : Prop := a.sut = b.sut ∧ a.tel = b.tel ∧ a.ref = b.ref

/-- The cores of `u` and `v` have the slot `k` with the same noun there, and the rest of the two
requests is the same. -/
def SharesSlot (k : UInt64) (u v : Visit) : Prop :=
  ∃ a b slot, u.args = .ok a ∧ v.args = .ok b ∧ SameQuestion a b ∧
    u.graph.wordSlot? a.van k = some slot ∧ v.graph.wordSlot? b.van k = some slot

/-- The core of `u` has no slot `k` and is what the core of `v` has there, and the rest of the
two requests is the same. -/
def IsSlotOf (k : UInt64) (u v : Visit) : Prop :=
  ∃ a b, u.args = .ok a ∧ v.args = .ok b ∧ SameQuestion a b ∧
    u.graph.wordSlot? a.van k = none ∧ v.graph.wordSlot? b.van k = some a.van

end Visit

theorem keyOf_eq_iff {h : Graph} {k : UInt64} {a b : Args} :
    keyOf g k a = keyOf h k b ↔
      (g.wordSlot? a.van k).getD a.van = (h.wordSlot? b.van k).getD b.van ∧
        Visit.SameQuestion a b := by
  unfold keyOf Visit.SameQuestion
  simp

/-- A dispatcher whose key axis is a slot that settles the answer, for cores that have it, answers
as its direct entry point does just when no core without the slot is asked for next to one that
has it in the slot, with another product for the first of the two. -/
theorem narrowed_key_direct_iff {settings : Settings} (wf : g.WellFormed)
    (hc : settings.cache = true) {errands : List Errand} {vs : List Visit}
    (h : Errand.visits (fun _ => settings) .empty g errands = some vs)
    (obligation : ∀ u ∈ vs, ∀ v ∈ vs, Visit.SharesSlot settings.keyAxis u v →
      SameOutcome u.direct v.direct) :
    (∀ v ∈ vs, v.answer = v.direct.1) ↔
      vs.Pairwise fun u v => ∀ p, u.direct.1 = .ok p →
        (u.IsSlotOf settings.keyAxis v ∨ v.IsSlotOf settings.keyAxis u) →
          SameOutcome u.direct v.direct := by
  obtain ⟨hsound, hordered⟩ := Errand.visits_sound (fun _ => hc) wf h
  have hsettings : ∀ v ∈ vs, v.settings = settings := by
    intro v hv
    obtain ⟨_, hd⟩ := (hsound v hv).1.settings
    exact hd
  rw [Errand.answers_direct_iff_agree (fun _ => hc) wf h]
  constructor
  · intro hall
    apply hall.imp_of_mem
    intro u v hu hv hagrees p hp hslot
    have hkeys : ∃ key, u.key = .ok key ∧ v.key = .ok key := by
      rcases hslot with ⟨a, b, ha, hb, hq, hnone, hsome⟩ | ⟨b, a, hb, ha, hq, hnone, hsome⟩
      · refine ⟨_, Visit.key_ok ha, ?_⟩
        rw [Visit.key_ok hb, hsettings u hu, hsettings v hv, Except.ok.injEq, keyOf_eq_iff]
        rw [hnone, hsome]
        exact ⟨rfl, hq.1.symm, hq.2.1.symm, hq.2.2.symm⟩
      · refine ⟨_, Visit.key_ok ha, ?_⟩
        rw [Visit.key_ok hb, hsettings u hu, hsettings v hv, Except.ok.injEq, keyOf_eq_iff]
        rw [hnone, hsome]
        exact ⟨rfl, hq⟩
    obtain ⟨key, hkey, hkey'⟩ := hkeys
    exact hagrees key p hkey hkey' hp
  · intro hall
    apply (hordered.and hall).imp_of_mem
    rintro u v hu hv ⟨hext, hslot⟩ key p hkey hkey' hp
    obtain ⟨a, ha, rfl⟩ := Visit.key_eq_ok hkey
    obtain ⟨b, hb, heq⟩ := Visit.key_eq_ok hkey'
    rw [hsettings u hu, hsettings v hv, keyOf_eq_iff] at heq
    obtain ⟨hvan, hq⟩ := heq
    cases hsu : u.graph.wordSlot? a.van settings.keyAxis with
    | some slot =>
      cases hsv : v.graph.wordSlot? b.van settings.keyAxis with
      | some slot' =>
        rw [hsu, hsv] at hvan
        have hvan : slot = slot' := hvan
        subst hvan
        exact obligation u hu v hv ⟨a, b, slot, ha, hb, hq, hsu, hsv⟩
      | none =>
        rw [hsu, hsv] at hvan
        have hvan : slot = b.van := hvan
        subst hvan
        exact hslot p hp (.inr ⟨b, a, hb, ha, ⟨hq.1.symm, hq.2.1.symm, hq.2.2.symm⟩, hsv, hsu⟩)
    | none =>
      cases hsv : v.graph.wordSlot? b.van settings.keyAxis with
      | some slot =>
        rw [hsu, hsv] at hvan
        have hvan : a.van = slot := hvan
        subst hvan
        exact hslot p hp (.inl ⟨a, b, ha, hb, hq, hsu, hsv⟩)
      | none =>
        rw [hsu, hsv] at hvan
        have hargs : a = b := by
          obtain ⟨hsut, htel, href⟩ := hq
          cases a
          cases b
          simp_all
        subst hargs
        have hs : u.settings = v.settings := (hsettings u hu).trans (hsettings v hv).symm
        exact (hsound u hu).1.same (hsound v hv).1 hext hs ha hb

def asking (van : Noun) : Terms := ⟨van, .atom 7, .atom 0, .atom 8⟩

/-- A core that answers 5 and has no slot 4. -/
def bare : Noun := .triple (.atom 0) (.atom 7) (.constant 5)

/-- A core that answers 6 and has the bare one in slot 4. -/
def holding (n : Nat) : Noun := .triple (.cell bare (.atom n)) (.atom 7) (.constant 6)

theorem asking_bare_fit : (asking bare).Fit := ⟨⟨true, rfl⟩, rfl⟩

theorem asking_holding_fit (n : Nat) : (asking (holding n)).Fit := ⟨⟨true, rfl⟩, rfl⟩

theorem verdict_bare : (asking bare).verdict ⟨100, 100⟩ 7 = .ok (.atom 5) := by rfl

theorem verdict_holding (n : Nat) :
    (asking (holding n)).verdict ⟨100, 100⟩ 7 = .ok (.atom 6) := by rfl

theorem slot?_bare : bare.slot? 4 = none := by rfl

theorem slot?_holding (n : Nat) : (holding n).slot? 4 = some bare := by rfl

/-- Two cores that hold the bare one and answer alike share an entry. -/
theorem narrowed_key_direct_holding :
    let placed := (asking (holding 0)).place (.empty ⟨0⟩)
    let other := (asking (holding 1)).place placed.2
    ∃ vs, Errand.visits (fun _ => ⟨true, 7, 4, ⟨100, 100⟩⟩) .empty other.2
        [.ask 0 (.nest placed.1), .ask 0 (.nest other.1)] = some vs ∧
      ∀ v ∈ vs, v.answer = v.direct.1 := by
  intro placed other
  obtain ⟨hgrow, hd⟩ := Terms.grows_place (Graph.wellFormed_empty ⟨0⟩) (asking (holding 0))
  obtain ⟨hgrow', hd'⟩ := Terms.grows_place hgrow.wellFormed (asking (holding 1))
  have hd := hd.extend hgrow'.extend
  obtain ⟨u, v, h, hu, hv⟩ := Errand.visits_pair
    (fun _ => ⟨true, 7, 4, ⟨100, 100⟩⟩) (fun _ => rfl) hgrow'.wellFormed 0 0
    hd (asking_holding_fit 0) hd' (asking_holding_fit 1)
  have hsix : ∀ w ∈ [u, v], Means w.direct (.ok (.atom 6)) := by
    simp only [List.mem_cons, List.not_mem_nil, or_false, forall_eq_or_imp, forall_eq]
    exact ⟨verdict_holding 0 ▸ hu.means, verdict_holding 1 ▸ hv.means⟩
  have hsame : ∀ w ∈ [u, v], ∀ w' ∈ [u, v], SameOutcome w.direct w'.direct :=
    fun w hw w' hw' => ⟨_, hsix w hw, hsix w' hw'⟩
  refine ⟨_, h, (narrowed_key_direct_iff hgrow'.wellFormed rfl h ?_).mpr ?_⟩
  · exact fun w hw w' hw' _ => hsame w hw w' hw'
  · simp only [List.pairwise_cons, List.mem_singleton, forall_eq, List.not_mem_nil,
      false_implies, implies_true, List.Pairwise.nil, and_true]
    exact fun _ _ _ => hsame u (by simp) v (by simp)

theorem Errand.misanswers_bare (wf : g.WellFormed) {x y : Args}
    (hx : x.Denotes g (asking (holding 0))) (hy : y.Denotes g (asking bare)) :
    ∃ vs, visits (fun _ => ⟨true, 7, 4, ⟨100, 100⟩⟩) .empty g
        [.ask 0 (.nest x), .ask 0 (.nest y)] = some vs ∧
      (∀ u ∈ vs, ∀ v ∈ vs, Visit.SharesSlot 4 u v → SameOutcome u.direct v.direct) ∧
      ∃ v ∈ vs, v.answer ≠ v.direct.1 := by
  obtain ⟨u, v, h, hu, hv⟩ := visits_pair (fun _ => ⟨true, 7, 4, ⟨100, 100⟩⟩)
    (fun _ => rfl) wf 0 0 hx (asking_holding_fit 0) hy asking_bare_fit
  obtain ⟨hsound, _⟩ := visits_sound (fun _ => rfl) wf h
  have hsu := (hsound u (by simp)).1
  have hkey := Visit.key_ok hu.args
  have hkey' := Visit.key_ok hv.args
  rw [hu.settings] at hkey
  rw [hv.settings] at hkey'
  have hsix : Means u.direct (.ok (.atom 6)) := verdict_holding 0 ▸ hu.means
  have hfive : Means v.direct (.ok (.atom 5)) := verdict_bare ▸ hv.means
  have hnone : v.graph.wordSlot? y.van 4 = none := by
    rw [Graph.wordSlot?_eq]
    exact (hy.van.extend hv.extends_graph).slot?_none slot?_bare
  have hsome : u.graph.wordSlot? x.van 4 = some y.van := by
    obtain ⟨id, hid, hbare⟩ := (hx.van.extend hu.extends_graph).slot?_some (slot?_holding 0)
    rw [Graph.wordSlot?_eq]
    rw [hbare.injective hsu.wellFormed (hy.van.extend hu.extends_graph)] at hid
    exact hid
  have hsame : keyOf v.graph 4 y = keyOf u.graph 4 x := by
    rw [keyOf_eq_iff, hnone, hsome]
    exact ⟨rfl, hy.sut.injective wf hx.sut, hy.tel.injective wf hx.tel, hy.ref.injective wf hx.ref⟩
  rw [hsame] at hkey'
  have hlacks : ∀ w, ¬ Visit.SharesSlot 4 w v := by
    rintro w ⟨_, b, slot, _, hb, _, _, hslot⟩
    rw [← Except.ok.inj (hv.args.symm.trans hb), hnone] at hslot
    contradiction
  have hlacks' : ∀ w, ¬ Visit.SharesSlot 4 v w := by
    rintro w ⟨a, _, slot, ha, _, _, hslot, _⟩
    rw [← Except.ok.inj (hv.args.symm.trans ha), hnone] at hslot
    contradiction
  have hself : SameOutcome u.direct u.direct := ⟨_, hsix, hsix⟩
  refine ⟨_, h, ?_, misanswers (fun _ => rfl) wf h hkey hkey' hsix hfive (by simp)⟩
  simp only [List.mem_cons, List.not_mem_nil, or_false, forall_eq_or_imp, forall_eq]
  exact ⟨⟨fun _ => hself, fun hs => absurd hs (hlacks u)⟩,
    fun hs => absurd hs (hlacks' u), fun hs => absurd hs (hlacks v)⟩

/-- The obligation holds, as only one of the two cores has the slot, and yet the bare core is
given the answer of the other one. -/
theorem narrowed_key_misanswers :
    let placed := (asking (holding 0)).place (.empty ⟨0⟩)
    let inner := (asking bare).place placed.2
    ∃ vs, Errand.visits (fun _ => ⟨true, 7, 4, ⟨100, 100⟩⟩) .empty inner.2
        [.ask 0 (.nest placed.1), .ask 0 (.nest inner.1)] = some vs ∧
      (∀ u ∈ vs, ∀ v ∈ vs, Visit.SharesSlot 4 u v → SameOutcome u.direct v.direct) ∧
      ∃ v ∈ vs, v.answer ≠ v.direct.1 := by
  intro placed inner
  obtain ⟨hgrow, hx⟩ := Terms.grows_place (Graph.wellFormed_empty ⟨0⟩) (asking (holding 0))
  obtain ⟨hgrow', hy⟩ := Terms.grows_place hgrow.wellFormed (asking bare)
  exact Errand.misanswers_bare hgrow'.wellFormed (hx.extend hgrow'.extend) hy

end NockDispatch
