import NockDispatch.Proofs.Session.History

/-!
# Visits to a shared memo

On one graph, every inquiry that may be answered from the memo is a visit. A visit notes
the answer and, for comparison, what the same dispatcher's direct entry point gives at that
moment. All answers of a history are direct ones just when no answer that was computed
early differs from what is asked for under the same key later.
-/

namespace NockDispatch

open Nest

/-- An inquiry that may be answered from the memo. -/
structure Visit where
  settings : Settings
  graph : Graph
  args : Except CallError Args
  answer : Except NestError NodeId
  /-- What the direct entry point gives at that moment, and the graph that it leaves. -/
  direct : Except NestError NodeId × Graph

namespace Visit

/-- The key under which the answer is looked up, unless the inquiry is malformed. -/
def key (v : Visit) : Except CallError Memo.Key :=
  v.args.map (keyOf v.graph v.settings.keyAxis)

/-- If `u` has a product, then `v` has the same one, provided that they have one key. -/
def Agrees (u v : Visit) : Prop :=
  ∀ key p, u.key = .ok key → v.key = .ok key → u.direct.1 = .ok p → SameOutcome u.direct v.direct

/-- What the memo keeps for `v` is what the direct entry point gives. -/
def Meets (memo : Memo) (g : GraphId) (v : Visit) : Prop :=
  ∀ key p, v.key = .ok key → memo.get? g key = some p → v.direct.1 = .ok p

end Visit

namespace Errand

def visit? (dispatchers : Nat → Settings) (memo : Memo) (g : Graph) : Errand → Option Visit
  | work _ => none
  | ask d inquiry =>
    if inquiry.mayFind then
      let direct := (inquiry.direct.answer (dispatchers d)).perform memo g
      some ⟨dispatchers d, g, inquiry.take g,
        ((inquiry.answer (dispatchers d)).perform memo g).1.1, (direct.1.1, direct.2)⟩
    else none

def visits (dispatchers : Nat → Settings) (memo : Memo) (g : Graph) :
    List Errand → Option (List Visit)
  | [] => some []
  | errand :: rest =>
    if errand.Fits g then do
      let left := errand.run dispatchers memo g
      let later ← visits dispatchers left.1.2 left.2 rest
      some ((errand.visit? dispatchers memo g).toList ++ later)
    else none

end Errand

/-- All that an errand can do: the visit that it makes, the memo and the graph that it leaves. -/
inductive Effect (memo : Memo) (g : Graph) : Option Visit → Memo → Graph → Prop
  | quiet {h} : g.Grows h → Effect memo g none memo h
  | malformed {v e} : v.args = .error e → v.answer = v.direct.1 → g.Grows v.direct.2 →
      Effect memo g (some v) memo g
  | hit {v key p} : v.key = .ok key → memo.get? g.id key = some p → v.answer = .ok p →
      g.Grows v.direct.2 → Effect memo g (some v) { memo with hits := memo.hits + 1 } g
  | miss {v key} : v.key = .ok key → memo.get? g.id key = none → v.answer = v.direct.1 →
      g.Grows v.direct.2 → (∀ p, v.direct.1 = .ok p → ∃ a, v.direct.2.Denotes p a) →
      Effect memo g (some v) (kept memo key v.direct) v.direct.2

variable {dispatchers : Nat → Settings} {memo : Memo} {g h : Graph}

theorem Errand.effect (hc : ∀ d, (dispatchers d).cache = true) (wf : g.WellFormed)
    {errand : Errand} (hf : errand.Fits g) (memo : Memo) :
    Effect memo g (errand.visit? dispatchers memo g) (errand.run dispatchers memo g).1.2
      (errand.run dispatchers memo g).2 := by
  cases errand with
  | work task => exact .quiet (task.grows_run wf hf.stored)
  | ask d inquiry =>
    simp only [visit?, run]
    have hdirect := inquiry.perform_direct (dispatchers d) memo g
    cases hargs : inquiry.take g with
    | error e =>
      rw [hargs] at hdirect
      rw [Inquiry.perform_malformed hargs, hdirect]
      cases inquiry.mayFind with
      | true => exact .malformed rfl rfl (.refl wf)
      | false => exact .quiet (.refl wf)
    | ok args =>
      have hs := Inquiry.stored_take wf hf.stored hargs
      have hgrow : g.Grows (compute (dispatchers d) args g).2 := grows_compute wf hs
      rw [hargs] at hdirect
      rw [Inquiry.perform_fit hargs, hdirect]
      cases inquiry.mayFind with
      | false =>
        simp only [Bool.false_eq_true, if_false, perform_nestDirect]
        exact .quiet hgrow
      | true =>
        simp only [if_true]
        cases hp : memo.get? g.id (keyOf g (dispatchers d).keyAxis args) with
        | some p =>
          rw [perform_nest_hit (hc d) hp]
          exact .hit rfl hp rfl hgrow
        | none =>
          rw [perform_nest_miss (hc d) hp]
          exact .miss rfl hp rfl hgrow fun p hp => denotes_compute wf hs hp

/-! ## What is noted of a visit -/

/-- A visit by one of the dispatchers, whose nouns are stored, compared with what is computed. -/
structure Visit.Sound (dispatchers : Nat → Settings) (v : Visit) : Prop where
  settings : ∃ d, v.settings = dispatchers d
  wellFormed : v.graph.WellFormed
  stored : ∀ ⦃args⦄, v.args = .ok args → args.Stored v.graph
  direct : ∀ ⦃args⦄, v.args = .ok args → v.direct = compute v.settings args v.graph

theorem Errand.visit_sound (wf : g.WellFormed) {errand : Errand} (hf : errand.Fits g) {v : Visit}
    (hv : errand.visit? dispatchers memo g = some v) : v.Sound dispatchers ∧ v.graph = g := by
  cases errand with
  | work task => cases hv
  | ask d inquiry =>
    have hdirect := inquiry.perform_direct (dispatchers d) memo g
    simp only [visit?] at hv
    split at hv
    · cases hv
      refine ⟨⟨⟨d, rfl⟩, wf, fun args hargs => Inquiry.stored_take wf hf.stored hargs, ?_⟩, rfl⟩
      intro args hargs
      have hargs : inquiry.take g = .ok args := hargs
      rw [hargs] at hdirect
      rw [hdirect]
    · cases hv

theorem Visit.key_error {v : Visit} {e : CallError} (hv : v.args = .error e) :
    v.key = .error e := by
  rw [key, hv]
  rfl

/-! ## The memo of one graph -/

/-- The memo serves the graph, and what it keeps are nouns of the graph. -/
structure Tidy (memo : Memo) (g : Graph) : Prop where
  serves : memo.serves g.id = true
  denotes : ∀ ⦃key p⦄, memo.get? g.id key = some p → ∃ a, g.Denotes p a

theorem tidy_empty (g : Graph) : Tidy .empty g :=
  ⟨rfl, fun key p hp => by simp [Memo.get?_empty] at hp⟩

theorem Tidy.grow (ht : Tidy memo g) (hgrow : g.Grows h) : Tidy memo h := by
  constructor
  · rw [hgrow.id_eq]
    exact ht.serves
  · intro key p hp
    rw [hgrow.id_eq] at hp
    obtain ⟨a, ha⟩ := ht.denotes hp
    exact ⟨a, ha.extend hgrow.extend⟩

theorem get?_kept_ok {key other : Memo.Key} {p : NodeId} (hserves : memo.serves h.id = true) :
    (kept memo key (.ok p, h)).get? h.id other =
      if key = other then some p else memo.get? h.id other :=
  Memo.get?_save_self (m := { memo with misses := memo.misses + 1 }) hserves key other p

theorem Tidy.kept {key : Memo.Key} {left : Except NestError NodeId × Graph} (ht : Tidy memo left.2)
    (hp : ∀ p, left.1 = .ok p → ∃ a, left.2.Denotes p a) :
    Tidy (kept memo key left) left.2 := by
  obtain ⟨outcome, h⟩ := left
  cases outcome with
  | error e => exact ⟨ht.serves, ht.denotes⟩
  | ok p =>
    constructor
    · simp only [Nest.kept, Memo.save]
      split
      · simp [Memo.serves]
      · next hserves => exact absurd ht.serves hserves
    · intro other q hq
      rw [get?_kept_ok ht.serves] at hq
      split at hq
      · cases hq
        exact hp p rfl
      · exact ht.denotes hq

theorem Effect.tidy {v : Option Visit} {memo' : Memo} (he : Effect memo g v memo' h)
    (ht : Tidy memo g) : Tidy memo' h := by
  cases he with
  | quiet hgrow => exact ht.grow hgrow
  | malformed => exact ht
  | hit => exact ⟨ht.serves, ht.denotes⟩
  | miss _ _ _ hgrow hp => exact (ht.grow hgrow).kept hp

theorem Effect.grows {v : Option Visit} {memo' : Memo} (he : Effect memo g v memo' h)
    (wf : g.WellFormed) : g.Grows h ∧ ∀ u ∈ v, g.Grows u.direct.2 := by
  cases he with
  | quiet hgrow => exact ⟨hgrow, by simp⟩
  | malformed _ _ hgrow => exact ⟨.refl wf, by simpa using hgrow⟩
  | hit _ _ _ hgrow => exact ⟨.refl wf, by simpa using hgrow⟩
  | miss _ _ _ hgrow _ => exact ⟨hgrow, by simpa using hgrow⟩

/-! ## All answers of a history -/

theorem Errand.visits_cons {errand : Errand} {rest : List Errand} {vs : List Visit}
    (h : visits dispatchers memo g (errand :: rest) = some vs) :
    errand.Fits g ∧ ∃ later,
      visits dispatchers (errand.run dispatchers memo g).1.2 (errand.run dispatchers memo g).2
        rest = some later ∧ vs = (errand.visit? dispatchers memo g).toList ++ later := by
  unfold visits at h
  split at h
  · next hf =>
    obtain ⟨later, hlater, hvs⟩ := Option.bind_eq_some_iff.mp h
    cases hvs
    exact ⟨hf, later, hlater, rfl⟩
  · cases h

theorem Errand.grows_visits (hc : ∀ d, (dispatchers d).cache = true) (wf : g.WellFormed)
    {errands : List Errand} {vs : List Visit}
    (h : visits dispatchers memo g errands = some vs) : ∀ v ∈ vs, g.Grows v.direct.2 := by
  induction errands generalizing memo g vs with
  | nil =>
    cases h
    simp
  | cons errand rest ih =>
    obtain ⟨hf, later, hlater, rfl⟩ := visits_cons h
    obtain ⟨hgrow, hvisit⟩ := (errand.effect hc wf hf memo).grows wf
    intro v hv
    rcases List.mem_append.mp hv with hv | hv
    · exact hvisit v (Option.mem_toList.mp hv)
    · exact hgrow.trans (ih hgrow.wellFormed hlater v hv)

theorem Errand.visits_sound (hc : ∀ d, (dispatchers d).cache = true) (wf : g.WellFormed)
    {errands : List Errand} {vs : List Visit}
    (h : visits dispatchers memo g errands = some vs) :
    (∀ v ∈ vs, v.Sound dispatchers ∧ g.Extends v.graph) ∧
      vs.Pairwise fun u v => u.graph.Extends v.graph := by
  induction errands generalizing memo g vs with
  | nil =>
    cases h
    simp
  | cons errand rest ih =>
    obtain ⟨hf, later, hlater, rfl⟩ := visits_cons h
    have hgrow := ((errand.effect hc wf hf memo).grows wf).1
    obtain ⟨hsound, hordered⟩ := ih hgrow.wellFormed hlater
    have hlater : ∀ v ∈ later, v.Sound dispatchers ∧ g.Extends v.graph := fun v hv =>
      ⟨(hsound v hv).1, hgrow.extend.trans (hsound v hv).2⟩
    cases hv : errand.visit? dispatchers memo g with
    | none => exact ⟨hlater, hordered⟩
    | some v =>
      obtain ⟨hs, hg⟩ := visit_sound wf hf hv
      simp only [Option.toList_some, List.cons_append, List.nil_append, List.forall_mem_cons,
        List.pairwise_cons, hg]
      exact ⟨⟨⟨hs, .refl g⟩, hlater⟩, fun w hw => (hlater w hw).2, hordered⟩

/-- What was computed for `v` is what later visits under its key find. -/
theorem Visit.meets_kept {v w : Visit} {key : Memo.Key} (hkey : v.key = .ok key)
    (hid : v.direct.2.id = g.id) (hserves : memo.serves g.id = true)
    (hnone : memo.get? g.id key = none)
    (hproduct : ∀ p, v.direct.1 = .ok p → ∃ a, v.direct.2.Denotes p a)
    (hgrow : v.direct.2.Grows w.direct.2) :
    w.Meets (kept memo key v.direct) v.direct.2.id ↔ w.Meets memo g.id ∧ v.Agrees w := by
  unfold Agrees
  generalize v.direct = left at hid hproduct hgrow ⊢
  obtain ⟨outcome, h⟩ := left
  cases outcome with
  | error e =>
    have hsame : ∀ other, (kept memo key (.error e, h)).get? h.id other = memo.get? g.id other := by
      intro other
      rw [← hid]
      rfl
    simp [Meets, hsame]
  | ok p =>
    obtain ⟨a, ha⟩ := hproduct p rfl
    have hget : ∀ other, (kept memo key (.ok p, h)).get? h.id other =
        if key = other then some p else memo.get? g.id other := by
      intro other
      have hid : h.id = g.id := hid
      rw [get?_kept_ok (by rw [hid]; exact hserves), hid]
    constructor
    · intro hw
      constructor
      · intro other q hother hq
        have hne : key ≠ other := by
          rintro rfl
          rw [hnone] at hq
          cases hq
        apply hw other q hother
        rw [hget, if_neg hne, hq]
      · intro other q hvkey hwkey hq
        rw [hkey] at hvkey
        cases hvkey
        cases hq
        have hdirect := hw key p hwkey (by rw [hget, if_pos rfl])
        exact ⟨.ok a, .ok ha, means_of_eq_ok ha hgrow hdirect⟩
    · rintro ⟨hw, hagrees⟩ other q hother hq
      rw [hget] at hq
      split at hq
      · next heq =>
        subst heq
        cases hq
        exact (hagrees key p hkey hother rfl).eq_ok hgrow
      · exact hw other q hother hq

/-- Later visits meet what the memo keeps, and any two of them agree. -/
def Consistent (memo : Memo) (g : Graph) (vs : List Visit) : Prop :=
  (∀ v ∈ vs, v.Meets memo g.id) ∧ vs.Pairwise Visit.Agrees

theorem Effect.consistent {v : Option Visit} {memo' : Memo} (he : Effect memo g v memo' h)
    (ht : Tidy memo g) {later : List Visit}
    (hlater : ∀ w ∈ later, h.Grows w.direct.2) :
    ((∀ u ∈ v, u.answer = u.direct.1) ∧ Consistent memo' h later) ↔
      Consistent memo g (v.toList ++ later) := by
  unfold Consistent
  cases he with
  | quiet hgrow => simp [hgrow.id_eq]
  | @malformed v e hargs hanswer hgrow =>
    have hkey : ∀ key, v.key ≠ .ok key := by simp [Visit.key_error hargs]
    have hmeets : v.Meets memo g.id := fun key p hk => absurd hk (hkey key)
    have hagrees : ∀ w, v.Agrees w := fun w key p hk => absurd hk (hkey key)
    simp [hanswer, hmeets, hagrees]
  | @hit v key p hkey hp hanswer hgrow =>
    obtain ⟨a, ha⟩ := ht.denotes hp
    have hmeets : v.Meets memo g.id ↔ v.direct.1 = .ok p := by
      constructor
      · intro hv
        exact hv key p hkey hp
      · intro hv other q hother hq
        rw [hkey] at hother
        cases hother
        rw [hp] at hq
        cases hq
        exact hv
    -- Later visits under the key meet the same entry, so they agree with this one.
    have hagrees : v.direct.1 = .ok p → ∀ w ∈ later, w.Meets memo g.id → v.Agrees w := by
      intro hv w hw hmeets other q hother hwkey _
      rw [hkey] at hother
      cases hother
      exact ⟨.ok a, means_of_eq_ok ha hgrow hv, means_of_eq_ok ha (hlater w hw) (hmeets key p hwkey hp)⟩
    have hsame : ∀ w : Visit, w.Meets { memo with hits := memo.hits + 1 } g.id ↔
        w.Meets memo g.id := fun _ => Iff.rfl
    simp only [Option.toList_some, List.cons_append, List.nil_append, List.forall_mem_cons,
      List.pairwise_cons, hmeets, hsame, Option.mem_some_iff, forall_eq', hanswer]
    constructor
    · rintro ⟨hv, hmeet, hpair⟩
      exact ⟨⟨hv.symm, hmeet⟩, fun w hw => hagrees hv.symm w hw (hmeet w hw), hpair⟩
    · rintro ⟨⟨hv, hmeet⟩, _, hpair⟩
      exact ⟨hv.symm, hmeet, hpair⟩
  | @miss v key hkey hnone hanswer hgrow hproduct =>
    have hmeets : v.Meets memo g.id := by
      intro other q hother hq
      rw [hkey] at hother
      cases hother
      rw [hnone] at hq
      cases hq
    have hstep : ∀ w ∈ later, w.Meets (kept memo key v.direct) v.direct.2.id ↔
        w.Meets memo g.id ∧ v.Agrees w := by
      intro w hw
      exact Visit.meets_kept hkey hgrow.id_eq ht.serves hnone hproduct (hlater w hw)
    simp only [Option.toList_some, List.cons_append, List.nil_append, List.forall_mem_cons,
      List.pairwise_cons, hmeets, Option.mem_some_iff, forall_eq', hanswer, true_and]
    constructor
    · rintro ⟨hmeet, hpair⟩
      exact ⟨fun w hw => ((hstep w hw).mp (hmeet w hw)).1,
        fun w hw => ((hstep w hw).mp (hmeet w hw)).2, hpair⟩
    · rintro ⟨hmeet, hagrees, hpair⟩
      exact ⟨fun w hw => (hstep w hw).mpr ⟨hmeet w hw, hagrees w hw⟩, hpair⟩

/-- All answers are direct ones just when no two visits under one key differ in outcome, the
earlier one having a product, and none differs from what the memo kept for it before. -/
theorem Errand.answers_direct_iff (hc : ∀ d, (dispatchers d).cache = true) (wf : g.WellFormed)
    (ht : Tidy memo g) {errands : List Errand} {vs : List Visit}
    (h : visits dispatchers memo g errands = some vs) :
    (∀ v ∈ vs, v.answer = v.direct.1) ↔ Consistent memo g vs := by
  induction errands generalizing memo g vs with
  | nil =>
    cases h
    simp [Consistent]
  | cons errand rest ih =>
    obtain ⟨hf, later, hlater, rfl⟩ := visits_cons h
    have he := errand.effect hc wf hf memo
    have hgrow := (he.grows wf).1
    rw [← he.consistent ht (grows_visits hc hgrow.wellFormed hlater),
      ← ih hgrow.wellFormed (he.tidy ht) hlater]
    constructor
    · intro hall
      constructor
      · exact fun u hu => hall u (by simp [Option.mem_toList.mpr hu])
      · exact fun u hu => hall u (by simp [hu])
    · rintro ⟨hfirst, hrest⟩ u hu
      rcases List.mem_append.mp hu with hu | hu
      · exact hfirst u (Option.mem_toList.mp hu)
      · exact hrest u hu

theorem Errand.answers_direct_iff_agree (hc : ∀ d, (dispatchers d).cache = true)
    (wf : g.WellFormed) {errands : List Errand} {vs : List Visit}
    (h : visits dispatchers .empty g errands = some vs) :
    (∀ v ∈ vs, v.answer = v.direct.1) ↔ vs.Pairwise Visit.Agrees := by
  rw [answers_direct_iff hc wf (tidy_empty g) h]
  have hmeets : ∀ v : Visit, v.Meets .empty g.id := fun v key p _ hp => by
    simp [Memo.get?_empty] at hp
  exact ⟨fun hall => hall.2, fun hall => ⟨fun v _ => hmeets v, hall⟩⟩

theorem Errand.visit?_nest (dispatchers : Nat → Settings) (memo : Memo) (g : Graph) (d : Nat)
    (x : Args) : ∃ u, (ask d (.nest x)).visit? dispatchers memo g = some u ∧
      u.settings = dispatchers d ∧ u.args = .ok x :=
  ⟨_, rfl, rfl, rfl⟩

theorem Errand.visits_two (dispatchers : Nat → Settings) (wf : g.WellFormed) (memo : Memo)
    (d e : Nat) {x y : Args} {s t : Terms} (hx : x.Denotes g s) (hs : s.Fit)
    (hy : y.Denotes g t) (ht : t.Fit) :
    ∃ u v, visits dispatchers memo g [.ask d (.nest x), .ask e (.nest y)] = some [u, v] ∧
      u.settings = dispatchers d ∧ u.args = .ok x ∧ v.settings = dispatchers e ∧ v.args = .ok y := by
  have hfits : (ask d (.nest x)).Fits g := hx.given hs
  have hgrow := (ask d (.nest x)).grows_run wf hfits dispatchers memo
  have hfits' : (ask e (.nest y)).Fits ((ask d (.nest x)).run dispatchers memo g).2 :=
    (hy.extend hgrow.extend).given ht
  obtain ⟨u, hu, hfirst⟩ := visit?_nest dispatchers memo g d x
  obtain ⟨v, hv, hsecond⟩ := visit?_nest dispatchers
    ((ask d (.nest x)).run dispatchers memo g).1.2 ((ask d (.nest x)).run dispatchers memo g).2 e y
  refine ⟨u, v, ?_, hfirst.1, hfirst.2, hsecond.1, hsecond.2⟩
  simp only [visits, if_pos hfits, if_pos hfits', hu, hv]
  rfl

end NockDispatch
