import NockDispatch.Proofs.Nest.Entries
import NockDispatch.Proofs.Nest.Expression
import NockDispatch.Proofs.Session.About

/-!
# Building nest cores

Of the things that a nest core is built from, only the gate that is pulled out of `van` can let it
fail: either the evaluation fails, or the gate has no sample of two halves. Everything else is there
once the nouns of a check were taken, so that a core, if there is one, is run.
-/

namespace NockDispatch.Nest

variable {g : Graph} {args : Args} {terms : Terms} {inquiry : Inquiry}

/-- What becomes of a core after its gate was pulled, or not. -/
inductive Filled (terms : Terms) (pulled : Except EvalError NodeId × Graph) :
    Except NestError Noun → Prop
  | evaluation {e : EvalError} : pulled.1 = .error e → Filled terms pulled (.error (.interpreter e))
  | missingSample {gate : NodeId} {p : Noun} : pulled.1 = .ok gate → pulled.2.Denotes gate p →
      (∀ b x y c, p ≠ .cell b (.cell (.cell x y) c)) →
      Filled terms pulled (.error (.interpreter (.missingAxis 12)))
  | ok {gate : NodeId} {b x y c : Noun} : pulled.1 = .ok gate →
      pulled.2.Denotes gate (.cell b (.cell (.cell x y) c)) →
      Filled terms pulled (.ok (.cell b (.cell (.cell terms.tel terms.ref) c)))

/-! ## Checks of nouns -/

namespace Terms

def fill (terms : Terms) (gate : Noun) : Except EvalError Noun := do
  let gate ← Noun.found 12 (gate.edit? 12 terms.tel)
  Noun.found 13 (gate.edit? 13 terms.ref)

theorem fill_eq_ok (terms : Terms) (b x y c : Noun) :
    terms.fill (.cell b (.cell (.cell x y) c)) =
      .ok (.cell b (.cell (.cell terms.tel terms.ref) c)) := by
  have hhead : Axis.path 12 = some [.tail, .head, .head] := rfl
  have htail : Axis.path 13 = some [.tail, .head, .tail] := rfl
  simp [fill, Noun.edit?, Noun.replace, Noun.found, hhead, htail, bind, Except.bind]

theorem fill_eq_error (terms : Terms) {gate : Noun}
    (hshape : ∀ b x y c, gate ≠ .cell b (.cell (.cell x y) c)) :
    terms.fill gate = .error (.missingAxis 12) := by
  rcases gate with n | ⟨b, n | ⟨n | ⟨x, y⟩, c⟩⟩
  · rfl
  · rfl
  · rfl
  · exact absurd rfl (hshape b x y c)

theorem core_eq {von : Noun} (hvon : terms.van.edit? 6 terms.sut = some von) (limits : Limits)
    (arm : UInt64) :
    terms.core limits arm = outcome (Noun.nock limits von (pullFormula arm)) >>= terms.fill := by
  rw [core, hvon]
  rfl

theorem isSome_battery_of_core {limits : Limits} {arm : UInt64} {core : Noun}
    (hcore : terms.core limits arm = .ok core) : (core.slot? 2).isSome := by
  obtain ⟨_, _, hcore⟩ := bind_eq_ok hcore
  obtain ⟨_, _, hcore⟩ := bind_eq_ok hcore
  obtain ⟨gate, _, hcore⟩ := bind_eq_ok hcore
  cases hedit : gate.edit? 13 terms.ref with
  | none =>
    rw [hedit] at hcore
    cases hcore
  | some b =>
    rw [hedit] at hcore
    cases hcore
    exact isSome_battery hedit

theorem Fit.exists_edit (hf : terms.Fit) : ∃ von, terms.van.edit? 6 terms.sut = some von := by
  rw [← Option.isSome_iff_exists, Noun.edit?_isSome]
  exact hf.2

end Terms

theorem Filled.iff_eq {pulled : Except EvalError NodeId × Graph} {x : Except EvalError Noun}
    (hp : Means pulled x) (o : Except NestError Noun) :
    Filled terms pulled o ↔ (x >>= terms.fill).mapError .interpreter = o := by
  constructor
  · rintro (herror | ⟨hok, hd, hshape⟩ | ⟨hok, hd⟩)
    · rw [hp.error_iff.mp herror]
      rfl
    · rw [hp.ok_iff.mp ⟨_, hok, hd⟩]
      exact congrArg (Except.mapError NestError.interpreter) (terms.fill_eq_error hshape)
    · rw [hp.ok_iff.mp ⟨_, hok, hd⟩]
      exact congrArg (Except.mapError NestError.interpreter) (terms.fill_eq_ok _ _ _ _)
  · rintro rfl
    cases x with
    | error e => exact .evaluation (hp.error_iff.mpr rfl)
    | ok p =>
      obtain ⟨gate, hok, hd⟩ := hp.ok_iff.mpr rfl
      by_cases hshape : ∃ b x y c, p = .cell b (.cell (.cell x y) c)
      · obtain ⟨b, x, y, c, rfl⟩ := hshape
        have hfill : (Except.ok _ >>= terms.fill) = .ok _ := terms.fill_eq_ok b x y c
        rw [hfill]
        exact .ok hok hd
      · replace hshape : ∀ b x y c, p ≠ .cell b (.cell (.cell x y) c) :=
          fun b x y c hp => hshape ⟨b, x, y, c, hp⟩
        have hfill : (Except.ok p >>= terms.fill) = .error (.missingAxis 12) :=
          terms.fill_eq_error hshape
        rw [hfill]
        exact .missingSample hok hd hshape

/-! ## On graphs -/

theorem means_buildCore (wf : g.WellFormed) (hd : args.Denotes g terms) (limits : Limits)
    (arm : UInt64) :
    Means ((buildCore limits arm args).perform g)
      ((terms.core limits arm).mapError .interpreter) := by
  rw [← Terms.buildCore_reports limits arm terms ⟨[], 0⟩]
  exact (leaves_buildCore wf hd limits arm).means

theorem wordEdit_of_denotes (wf : g.WellFormed) {root value : NodeId} {a b c : Noun}
    (hd : g.Denotes root a) (hv : g.Denotes value b) {axis : UInt64}
    (hc : a.edit? axis.toNat b = some c) : ∃ id, (g.wordEdit root axis value).1 = some id ∧
      (g.wordEdit root axis value).2.Denotes id c := by
  rw [Graph.wordEdit_eq, hd.edit wf hv, hc]
  exact ⟨_, rfl, (Graph.grows_put wf c).2⟩

theorem invoke_of_battery {core battery : NodeId} (limits : Limits)
    (hb : g.wordSlot? core Axis.battery = some battery) (entries : Nat) :
    invoke limits core ⟨g, entries⟩ = MachineM.interpret limits core battery ⟨g, entries⟩ := by
  simp only [invoke, bind_apply, MachineM.read, hb]
  rfl

/-- Once the nouns of a check were taken, `sut` can be put into `van`. A core is built just when
pulling the arm out of that gives a gate with a sample of two halves, and then it is this gate with
`tel` and `ref` there; otherwise the error is that of pulling the arm, or that the gate lacks axis
12. A core that was built has a battery, and to run it is to evaluate that. `van` stays as it is. -/
theorem buildCore_fills (wf : g.WellFormed) (hfits : inquiry.Fits g)
    (htake : inquiry.take g = .ok args) (limits : Limits) (arm : UInt64) :
    let built := (buildCore limits arm args).perform g
    ∃ terms von, args.Denotes g terms ∧ Noun.Edit 6 terms.sut terms.van von ∧
      (∃ id, (g.wordEdit args.van Axis.sample args.sut).1 = some id ∧
        (g.wordEdit args.van Axis.sample args.sut).2.Denotes id von) ∧
      (∀ (h : Graph) (subject formula : NodeId), h.WellFormed → h.Denotes subject von →
        h.Denotes formula (Terms.pullFormula arm) →
        ∀ o, Means built o ↔ Filled terms (h.nock limits subject formula) o) ∧
      (∀ core, built.1 = .ok core → ∃ battery,
        built.2.wordSlot? core Axis.battery = some battery ∧
        ∀ entries, invoke limits core ⟨built.2, entries⟩ =
          MachineM.interpret limits core battery ⟨built.2, entries⟩) ∧
      built.2.Denotes args.van terms.van ∧
      ∀ core, built.1 = .ok core →
        ((invoke limits core).perform built.2).2.Denotes args.van terms.van := by
  intro built
  obtain ⟨terms, hd⟩ := (Inquiry.stored_take wf hfits.stored htake).exists_denotes wf
  obtain ⟨von, hvon⟩ := (Inquiry.fit_of_take hfits htake hd).exists_edit
  have hgrow : g.Grows built.2 := (leaves_buildCore wf hd limits arm).grows wf
  have hbuilt : Means built _ := means_buildCore wf hd limits arm
  have hvan := hd.van.extend hgrow.extend
  refine ⟨terms, von, hd, Noun.edit_iff.mpr hvon, wordEdit_of_denotes wf hd.van hd.sut hvon, ?_, ?_,
    hvan, ?_⟩
  · intro h subject formula wf' hs hf o
    have hpulled : Means (h.nock limits subject formula) _ := (hs.nock wf' hf limits).means
    rw [Filled.iff_eq hpulled, ← Terms.core_eq hvon]
    exact ⟨fun ho => hbuilt.functional ho, fun ho => ho ▸ hbuilt⟩
  · intro core hcore
    obtain ⟨a, ha⟩ := (leaves_buildCore wf hd limits arm).denotes hcore
    have hok : terms.core limits arm = .ok a :=
      mapError_interpreter_inj.mp (hbuilt.ok_iff.mp ⟨core, hcore, ha⟩)
    obtain ⟨b, hb⟩ : ∃ b, a.slot? Axis.battery.toNat = some b :=
      Option.isSome_iff_exists.mp (Terms.isSome_battery_of_core hok)
    obtain ⟨battery, hbattery, -⟩ := ha.wordSlot?_some hb
    exact ⟨battery, hbattery, invoke_of_battery limits hbattery⟩
  · intro core hcore
    obtain ⟨a, ha⟩ := (leaves_buildCore wf hd limits arm).denotes hcore
    have hrun := leaves_invoke hgrow.wellFormed ha limits
    exact hvan.extend (hrun.grows hgrow.wellFormed).extend

/-- With 8 in its sample, the core with the arm `[1 [1 5] [0 0] 0]` gives the gate
`[[1 5] [0 0] 0]`, and the nest core is `[[1 5] [0 9] 0]`. -/
theorem buildCore_fills_five :
    let placed := Terms.answeredFive.place (.empty ⟨0⟩)
    let built := (buildCore ⟨10, 10⟩ Axis.battery placed.1).perform placed.2
    (Inquiry.nest placed.1).Fits placed.2 ∧
    ∃ core, built.1 = .ok core ∧ built.2.Denotes core
        (.triple (.cell (.atom 1) (.atom 5)) (.cell (.atom 0) (.atom 9)) (.atom 0)) ∧
      built.2.Denotes placed.1.van Terms.answeredFive.van := by
  intro placed built
  obtain ⟨hgrow, hd⟩ := Terms.answeredFive.grows_place (Graph.wellFormed_empty ⟨0⟩)
  have hfit : Terms.answeredFive.Fit := ⟨⟨true, rfl⟩, rfl⟩
  have hfits : (Inquiry.nest placed.1).Fits placed.2 := hd.given hfit
  obtain ⟨⟨van, sut, tel, ref⟩, von, hd', hvon, -, hfilled, -, hvan, -⟩ :=
    buildCore_fills hgrow.wellFormed hfits rfl ⟨10, 10⟩ Axis.battery
  obtain rfl := hd'.van.functional hd.van
  obtain rfl := hd'.sut.functional hd.sut
  obtain rfl := hd'.tel.functional hd.tel
  obtain rfl := hd'.ref.functional hd.ref
  obtain ⟨hgrow₁, hsubject⟩ := Graph.grows_put hgrow.wellFormed von
  obtain ⟨hgrow₂, hformula⟩ :=
    Graph.grows_put hgrow₁.wellFormed (Terms.pullFormula Axis.battery)
  replace hsubject := hsubject.extend hgrow₂.extend
  have hnock := (hsubject.nock hgrow₂.wellFormed hformula ⟨10, 10⟩).means
  have hgate : outcome (Noun.nock ⟨10, 10⟩ von (Terms.pullFormula Axis.battery)) =
      .ok (.triple (.cell (.atom 1) (.atom 5)) (.cell (.atom 0) (.atom 0)) (.atom 0)) := by
    have hedit := Noun.edit_iff.mp hvon
    simp only [Noun.edit?, show Axis.path 6 = some [.tail, .head] from rfl, Option.bind_some,
      Terms.answeredFive, Noun.triple, Noun.replace, Option.map_some, Option.some.injEq] at hedit
    rw [← hedit]
    rfl
  obtain ⟨gate, hok, hdgate⟩ := hnock.ok_iff.mpr hgate
  have hmeans := (hfilled _ _ _ hgrow₂.wellFormed hsubject hformula _).mpr (.ok hok hdgate)
  obtain ⟨core, hcore, hdcore⟩ := hmeans.ok_iff.mpr rfl
  exact ⟨hfits, core, hcore, hdcore, hvan⟩

end NockDispatch.Nest
