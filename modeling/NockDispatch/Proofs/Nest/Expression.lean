import NockDispatch.Proofs.Eval.Ending
import NockDispatch.Proofs.Nest.Answer

/-!
# A nest check as one formula

A dispatcher computes a nest check by three edits and two evaluations, each with counters of its
own. The same check can be asked of Nock by one formula on `van`, which edits and evaluates on
its way. Under some limits or other both come to the same products and the same errors: wherever the
check fails, it is for what the formula would fail for first.
-/

namespace NockDispatch.Nest

namespace Terms

variable {limits : Limits} {arm : UInt64}

/-- The formula `[10 [axis 1 b] c]`, which puts `b` in a slot of what `c` gives. -/
def replace (axis : Nat) (b c : Noun) : Noun :=
  .triple (.atom 10) (.cell (.atom axis) (.cell (.atom 1) b)) c

/-- The formula `[10 [13 1 ref] 10 [12 1 tel] 9 arm 10 [6 1 sut] 0 1]`, which gives the nest
core. -/
def coreExpression (arm : UInt64) (terms : Terms) : Noun :=
  replace 13 terms.ref (replace 12 terms.tel
    (.triple (.atom 9) (.atom arm.toNat) (replace 6 terms.sut (.cell (.atom 0) (.atom 1)))))

/-- The formula `[9 2 10 [13 1 ref] 10 [12 1 tel] 9 arm 10 [6 1 sut] 0 1]`. -/
def expression (arm : UInt64) (terms : Terms) : Noun :=
  .triple (.atom 9) (.atom 2) (terms.coreExpression arm)

def core (limits : Limits) (arm : UInt64) (terms : Terms) : Except EvalError Noun := do
  let core ← Noun.found 6 (terms.van.edit? 6 terms.sut)
  let gate ← outcome (Noun.nock limits core (pullFormula arm))
  let gate ← Noun.found 12 (gate.edit? 12 terms.tel)
  Noun.found 13 (gate.edit? 13 terms.ref)

def answer (limits : Limits) (arm : UInt64) (terms : Terms) : Except EvalError Noun := do
  let core ← terms.core limits arm
  let battery ← Noun.found 2 (core.slot? 2)
  outcome (Noun.nock limits core battery)

end Terms

/-! ## The answer of a check -/

/-- Whatever is on the tally, a computation ends as `x` says. -/
def TallyM.Reports (m : TallyM α) (x : Except EvalError α) : Prop :=
  ∀ t, outcome (m t) = x.mapError .interpreter

namespace TallyM

theorem Reports.bind {m : TallyM α} {k : α → TallyM β} {x : Except EvalError α}
    {y : α → Except EvalError β} (hm : m.Reports x) (hk : ∀ a, (k a).Reports (y a)) :
    (m >>= k).Reports (x >>= y) := by
  intro t
  have hfirst := hm t
  change outcome (EStateM.bind m k t) = _
  unfold EStateM.bind
  cases hrun : m t with
  | ok a t' =>
    rw [hrun] at hfirst
    cases x with
    | ok b =>
      cases hfirst
      exact hk a t'
    | error e => cases hfirst
  | error e t' =>
    rw [hrun] at hfirst
    cases x with
    | ok b => cases hfirst
    | error e' =>
      cases hfirst
      rfl

theorem Reports.after_store {k : Noun → TallyM α} {x : Except EvalError α} {a : Noun}
    (h : (k a).Reports x) (before : List Noun) : (store before a >>= k).Reports x :=
  fun t => h { t with stored := t.stored ++ (before ++ [a]) }

theorem reports_present (axis : UInt64) (slot : Option Noun) :
    (present axis slot).Reports (Noun.found axis.toNat slot) := by
  intro t
  cases slot <;> rfl

theorem reports_edit (a : Noun) (axis : UInt64) (b : Noun) :
    (edit a axis b).Reports (Noun.found axis.toNat (a.edit? axis.toNat b)) := by
  intro t
  unfold edit
  cases a.edit? axis.toNat b <;> rfl

theorem reports_interpret (limits : Limits) (a f : Noun) :
    (interpret limits a f).Reports (outcome (Noun.nock limits a f)) := by
  intro t
  unfold interpret
  cases Noun.nock limits a f <;> rfl

end TallyM

namespace Terms

variable (limits : Limits) (arm : UInt64) (terms : Terms)

theorem buildCore_reports : (terms.buildCore limits arm).Reports (terms.core limits arm) := by
  unfold buildCore core
  refine (TallyM.reports_edit _ Axis.sample _).bind fun core => .after_store ?_ _
  refine (TallyM.reports_interpret limits core _).bind fun gate => ?_
  refine (TallyM.reports_edit gate Axis.sampleHead _).bind fun gate => ?_
  exact TallyM.reports_edit gate Axis.sampleTail _

theorem invoke_reports (core : Noun) : (invoke limits core).Reports (do
    let battery ← Noun.found 2 (core.slot? 2)
    outcome (Noun.nock limits core battery)) :=
  (TallyM.reports_present Axis.battery _).bind fun _ => TallyM.reports_interpret limits core _

theorem verdict_eq : terms.verdict limits arm = (terms.answer limits arm).mapError .interpreter :=
  (buildCore_reports limits arm terms).bind (invoke_reports limits) ⟨[], 0⟩

/-! ## The ends of a check -/

omit limits in
theorem ends_replace (a b c : Noun) (axis : Nat) :
    Noun.Ends a (replace axis b c) =
      Then (Noun.Ends a c) fun target => Only (Noun.found axis (target.edit? axis b)) := by
  rw [replace, Noun.ends_edit, Noun.ends_quote, only_ok_then]

omit limits in
theorem ends_pullFormula (core : Noun) :
    Noun.Ends core (pullFormula arm) =
      Then (Only (Noun.found arm.toNat (core.slot? arm.toNat))) fun f => Noun.Ends core f := by
  rw [pullFormula, Noun.ends_pull, Noun.ends_slot, Noun.slot?_one, Noun.found, only_ok_then]

theorem fair_found (n : Nat) (slot : Option Noun) : Fair (Noun.found n slot) := by
  cases slot with
  | none => exact fair_error id
  | some a => exact fair_ok a

theorem steady_found (n : Nat) (slot : Option Noun) : Steady fun _ => Noun.found n slot :=
  steady_const _

theorem reaches_found (n : Nat) (slot : Option Noun) :
    (Reaches fun _ => Noun.found n slot) = Only (Noun.found n slot) :=
  reaches_const (fair_found n slot)

/-- The core that a dispatcher builds is the one that its formula asks for: the gate comes first in
both, as constants cannot fail. -/
theorem reaches_core :
    (Reaches fun limits => terms.core limits arm) =
      Noun.Ends terms.van (terms.coreExpression arm) := by
  have hfilled : ∀ gate : Noun, (Reaches fun _ =>
      Noun.found 12 (gate.edit? 12 terms.tel) >>= fun gate =>
        Noun.found 13 (gate.edit? 13 terms.ref)) =
      Then (Only (Noun.found 12 (gate.edit? 12 terms.tel))) fun gate =>
        Only (Noun.found 13 (gate.edit? 13 terms.ref)) := by
    intro gate
    rw [reaches_bind (steady_found _ _) fun gate => steady_found _ _]
    simp only [reaches_found]
  have hpulled : ∀ core : Noun, (Reaches fun limits =>
      outcome (Noun.nock limits core (pullFormula arm)) >>= fun gate =>
        Noun.found 12 (gate.edit? 12 terms.tel) >>= fun gate =>
          Noun.found 13 (gate.edit? 13 terms.ref)) =
      Then (Noun.Ends core (pullFormula arm)) fun gate =>
        Then (Only (Noun.found 12 (gate.edit? 12 terms.tel))) fun gate =>
          Only (Noun.found 13 (gate.edit? 13 terms.ref)) := by
    intro core
    rw [reaches_bind (Noun.steady_nock _ _) fun gate => steady_const _, Noun.reaches_nock]
    simp only [hfilled]
  calc (Reaches fun limits => terms.core limits arm)
      = Then (Only (Noun.found 6 (terms.van.edit? 6 terms.sut))) fun core =>
          Then (Noun.Ends core (pullFormula arm)) fun gate =>
            Then (Only (Noun.found 12 (gate.edit? 12 terms.tel))) fun gate =>
              Only (Noun.found 13 (gate.edit? 13 terms.ref)) := by
        unfold core
        rw [reaches_bind (steady_found _ _) fun core =>
          (Noun.steady_nock core _).bind fun gate => steady_const _]
        simp only [reaches_found, hpulled]
    _ = Noun.Ends terms.van (terms.coreExpression arm) := by
        simp only [coreExpression, ends_replace, Noun.ends_pull, Noun.ends_slot, Noun.slot?_one,
          Noun.found, only_ok_then, then_assoc, ends_pullFormula]

theorem steady_core : Steady fun limits => terms.core limits arm :=
  (steady_found _ _).bind fun core => (Noun.steady_nock core _).bind fun _ => steady_const _

theorem reaches_answer :
    (Reaches fun limits => terms.answer limits arm) =
      Noun.Ends terms.van (terms.expression arm) := by
  have hinvoked : ∀ core : Noun, (Reaches fun limits =>
      Noun.found 2 (core.slot? 2) >>= fun battery => outcome (Noun.nock limits core battery)) =
      Then (Only (Noun.found 2 (core.slot? 2))) fun battery => Noun.Ends core battery := by
    intro core
    rw [reaches_bind (steady_found _ _) fun battery => Noun.steady_nock core battery]
    simp only [reaches_found, Noun.reaches_nock]
  unfold answer
  rw [reaches_bind (steady_core arm terms) fun core =>
    (steady_found _ _).bind fun battery => Noun.steady_nock core battery, reaches_core]
  simp only [hinvoked, expression, Noun.ends_pull]

end Terms

/-! ## On graphs -/

variable {g h : Graph} {args : Args} {terms : Terms} {formula : NodeId}

theorem mapError_interpreter_inj {x o : Except EvalError α} :
    x.mapError NestError.interpreter = o.mapError .interpreter ↔ x = o := by
  constructor
  · intro h
    cases x with
    | ok a =>
      cases o with
      | ok b =>
        cases h
        rfl
      | error e => cases h
    | error e =>
      cases o with
      | ok a => cases h
      | error e' =>
        cases h
        rfl
  · rintro rfl
    rfl

/-- A direct check under limits of its own, and what is left of the graph. -/
def checkWithin (settings : Settings) (args : Args) (memo : Memo) (g : Graph) (limits : Limits) :
    Except NestError NodeId × Graph :=
  let left := (nestDirect { settings with limits := limits } args).perform memo g
  (left.1.1, left.2)

theorem means_checkWithin (wf : g.WellFormed) (hd : args.Denotes g terms) (settings : Settings)
    (memo : Memo) (limits : Limits) :
    Means (checkWithin settings args memo g limits)
      ((terms.answer limits settings.nestArm).mapError .interpreter) := by
  have hmeans : Means (compute { settings with limits := limits } args g) _ := means_compute wf hd
  rw [Terms.verdict_eq] at hmeans
  simp only [checkWithin, perform_nestDirect]
  exact hmeans

/-- A direct check and the formula `[9 2 10 [13 1 ref] 10 [12 1 tel] 9 arm 10 [6 1 sut] 0 1]` on
`van` have the same products under some limits or other, and they fail alike except for limits. The
formula may have been stored at any time. -/
theorem nestDirect_iff_expression (wf : g.WellFormed) (hd : args.Denotes g terms)
    (settings : Settings) (memo : Memo) (hgrow : g.Grows h)
    (hf : h.Denotes formula (terms.expression settings.nestArm)) :
    (∀ v, (∃ limits p, (checkWithin settings args memo g limits).1 = .ok p ∧
          (checkWithin settings args memo g limits).2.Denotes p v) ↔
        ∃ limits p, (h.nock limits args.van formula).1 = .ok p ∧
          (h.nock limits args.van formula).2.Denotes p v) ∧
    ∀ e : EvalError, ¬ e.IsLimit →
      ((∃ limits, (checkWithin settings args memo g limits).1 = .error (.interpreter e)) ↔
        ∃ limits, (h.nock limits args.van formula).1 = .error e) := by
  have hcheck := means_checkWithin wf hd settings memo
  have hnock := fun limits =>
    ((hd.van.extend hgrow.extend).nock hgrow.wellFormed hf limits).means
  have hends : ∀ o : Except EvalError Noun, Fair o →
      ((∃ limits, terms.answer limits settings.nestArm = o) ↔
        ∃ limits,
          outcome (Noun.nock limits terms.van (terms.expression settings.nestArm)) = o) := by
    intro o hfair
    have hsame := congrFun ((terms.reaches_answer settings.nestArm).trans
      (Noun.reaches_nock _ _).symm) o
    simpa only [Reaches, hfair, true_and, eq_iff_iff] using hsame
  constructor
  · intro v
    have hgives := fun limits =>
      (hcheck limits).ok_iff.trans (mapError_interpreter_inj (o := .ok v))
    simp only [hgives, (hnock _).ok_iff]
    exact hends _ (fair_ok v)
  · intro e he
    have hfails := fun limits =>
      (hcheck limits).error_iff.trans (mapError_interpreter_inj (o := .error e))
    simp only [hfails, (hnock _).error_iff]
    exact hends _ (fair_error he)

/-- A core whose arm at axis 2 gives a gate that answers 5, and the rest of a check. -/
def Terms.answeredFive : Terms :=
  let gate := Noun.triple (.cell (.atom 1) (.atom 5)) (.cell (.atom 0) (.atom 0)) (.atom 0)
  ⟨.triple (.cell (.atom 1) gate) (.atom 7) (.atom 0), .atom 8, .atom 0, .atom 9⟩

/-- The check gives 5, and hence so does the formula. -/
theorem nestDirect_iff_expression_five :
    let placed := Terms.answeredFive.place (.empty ⟨0⟩)
    let formula := placed.2.put (Terms.answeredFive.expression Axis.battery)
    ∃ limits p, (formula.2.nock limits placed.1.van formula.1).1 = .ok p ∧
      (formula.2.nock limits placed.1.van formula.1).2.Denotes p (.atom 5) := by
  intro placed formula
  obtain ⟨hgrow, hd⟩ := Terms.answeredFive.grows_place (Graph.wellFormed_empty ⟨0⟩)
  obtain ⟨hgrow', hf⟩ :=
    Graph.grows_put hgrow.wellFormed (Terms.answeredFive.expression Axis.battery)
  have hanswer : Terms.answeredFive.answer ⟨10, 10⟩ Axis.battery = .ok (.atom 5) := by rfl
  have hcheck := means_checkWithin hgrow.wellFormed hd .standard .empty ⟨10, 10⟩
  have hfive := hcheck.ok_iff.mpr (mapError_interpreter_inj.mpr hanswer)
  have hsame := nestDirect_iff_expression hgrow.wellFormed hd .standard .empty hgrow' hf
  exact (hsame.1 _).mp ⟨⟨10, 10⟩, hfive⟩

end NockDispatch.Nest
