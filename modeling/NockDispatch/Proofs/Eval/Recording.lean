import Mathlib.Data.List.Forall2
import NockDispatch.Proofs.Eval.Series

/-!
# Evaluation with a trace and without

A trace is written to and never read. So an evaluation with a trace is the one without it, and a
number of events is added, one for each step that found its rule. The events of an evaluation that
has a product list the rules of its derivation in order.
-/

namespace NockDispatch

/-! ## Added events -/

def Trace.add (t : Trace) (events : List Event) : Trace :=
  { t with events := t.events ++ events.toArray }

/-- The events are numbered from a number on without a gap. -/
def Event.NumberedFrom (start : Nat) (events : List Event) : Prop :=
  ∀ i (h : i < events.length), events[i].step = start + i

section

variable {t : Trace} {events more : List Event}

theorem Trace.add_nil (t : Trace) : t.add [] = t := by simp [add]

theorem Trace.add_add (t : Trace) (events more : List Event) :
    (t.add events).add more = t.add (events ++ more) := by
  simp [add]

theorem Trace.size_add (t : Trace) (events : List Event) :
    (t.add events).events.size = t.events.size + events.length := by
  simp [add]

theorem Trace.events_add_inj (h : (t.add events).events = (t.add more).events) : events = more := by
  have hlist := congrArg Array.toList h
  simpa [add] using hlist

theorem Trace.record_eq_add (t : Trace) (rule : Rule) (s f : NodeId) :
    t.record rule s f = t.add [⟨t.events.size, rule, s, f⟩] := by
  simp [record, add]

theorem Event.numberedFrom_nil (start : Nat) : NumberedFrom start [] :=
  fun _ h => absurd h (Nat.not_lt_zero _)

theorem Event.numberedFrom_one (event : Event) : NumberedFrom event.step [event] := by
  intro i hi
  have hzero : i = 0 := by simpa using hi
  subst hzero
  rfl

theorem Event.numberedFrom_append {start : Nat} (h : NumberedFrom start events)
    (h' : NumberedFrom (start + events.length) more) : NumberedFrom start (events ++ more) := by
  intro i hi
  rw [List.length_append] at hi
  by_cases hfirst : i < events.length
  · rw [List.getElem_append_left hfirst, h i hfirst]
  · have hrest : i - events.length < more.length := by omega
    rw [List.getElem_append_right (by omega), h' _ hrest]
    omega

end

/-! ## Computations with a trace -/

/-- A step whose formula asks for no rule. -/
def EvalError.unruled (e : EvalError) : Nat := if e.IsRuleless then 1 else 0

theorem EvalError.unruled_of_not {e : EvalError} (he : ¬ e.IsRuleless) : e.unruled = 0 := if_neg he

/-- The same state with another trace or none. -/
def Run.telling (run : Run) (trace : Option Trace) : Run := { run with trace := trace }

/-- The end of a computation without a trace, and the end of the same computation with the trace
`t`. As many events are added as steps are taken, where `owed` steps were taken before and a step
without a rule has no event. -/
inductive Run.Told (t : Trace) (steps owed : Nat) :
    EStateM.Result EvalError Run α → EStateM.Result EvalError Run α → Prop
  | ok {x events} (run : Run) : Event.NumberedFrom t.events.size events →
      run.steps + owed = steps + events.length →
      Told t steps owed (.ok x (run.telling none)) (.ok x (run.telling (t.add events)))
  | error {e events} (run : Run) : Event.NumberedFrom t.events.size events →
      run.steps + owed = steps + events.length + e.unruled →
      Told t steps owed (.error e (run.telling none)) (.error e (run.telling (t.add events)))

namespace Run.Told

variable {t : Trace} {steps owed : Nat} {run : Run}
  {plain traced : EStateM.Result EvalError Run α}

theorem nothing (run : Run) (x : α) :
    Told t run.steps 0 (.ok x (run.telling none)) (.ok x (run.telling t)) := by
  have h : Told t run.steps 0 (.ok x (run.telling none)) (.ok x (run.telling (t.add []))) :=
    .ok run (Event.numberedFrom_nil _) rfl
  rwa [Trace.add_nil] at h

theorem failed (run : Run) {e : EvalError} (h : run.steps + owed = steps + e.unruled) :
    Told t steps owed (.error e (run.telling none) : EStateM.Result EvalError Run α)
      (.error e (run.telling t)) := by
  have h' : Told t steps owed (.error e (run.telling none) : EStateM.Result EvalError Run α)
      (.error e (run.telling (t.add []))) := .error run (Event.numberedFrom_nil _) h
  rwa [Trace.add_nil] at h'

theorem after {events : List Event} (h : Told (t.add events) run.steps 0 plain traced)
    (hnumbered : Event.NumberedFrom t.events.size events)
    (hsteps : run.steps + owed = steps + events.length) : Told t steps owed plain traced := by
  cases h with
  | ok run hnumbered' hsteps' =>
    rw [Trace.size_add] at hnumbered'
    rw [Trace.add_add]
    refine .ok run (Event.numberedFrom_append hnumbered hnumbered') ?_
    rw [List.length_append]
    omega
  | error run hnumbered' hsteps' =>
    rw [Trace.size_add] at hnumbered'
    rw [Trace.add_add]
    refine .error run (Event.numberedFrom_append hnumbered hnumbered') ?_
    rw [List.length_append]
    omega

theorem settle (h : Told t (steps + 1) 1 plain traced) : Told t steps 0 plain traced := by
  cases h with
  | ok run hnumbered hsteps => exact .ok run hnumbered (by omega)
  | error run hnumbered hsteps => exact .error run hnumbered (by omega)

theorem comeUp (h : Told t steps owed plain traced) :
    Told t steps owed (Run.comeUp plain) (Run.comeUp traced) := by
  cases h with
  | ok run hnumbered hsteps => exact .ok run.shallower hnumbered hsteps
  | error run hnumbered hsteps => exact .error run.shallower hnumbered hsteps

end Run.Told

/-- How many steps were taken whose rule is not recorded. -/
def Stage.owed : Stage → Nat
  | settled => 0
  | owing => 1

/-- The first computation is the same with a trace and without, except for the events. -/
def Narrates : Comparison := fun stage _ _ m _ =>
  ∀ (t : Trace) (run : Run),
    Run.Told t run.steps stage.owed (m (run.telling none)) (m (run.telling t))

theorem congruent_narrates (limits : Limits) : Narrates.Congruent limits limits where
  pure _ _ x t run := .nothing run x
  bind {stage n _ _ m _ k _} hm hk t run := by
    change Run.Told _ _ _ (EStateM.bind m k _) (EStateM.bind m k _)
    unfold EStateM.bind
    have hfirst := hm t run
    generalize m (run.telling none) = plain at hfirst ⊢
    generalize m (run.telling t) = traced at hfirst ⊢
    cases hfirst with
    | @ok x events now hnumbered hsteps => exact (hk x (t.add events) now).after hnumbered hsteps
    | error now hnumbered hsteps => exact .error now hnumbered hsteps
  read hk t run := hk _ t run
  store _ _ put t run := .nothing { run with graph := (put run.graph).2 } _
  record _ rule s f t run := by
    simp only [EvalM.record, Run.telling, Trace.record_eq_add]
    exact .ok run (Event.numberedFrom_one _) rfl
  fail _ _ e _ he t run := .failed run (by rw [EvalError.unruled_of_not he]; rfl)
  ruleless _ _ e he t run := .failed run (by rw [EvalError.unruled, if_pos he]; rfl)
  nested {_ _ m _} hm t run := by
    rw [EvalM.nested, EvalM.nestedNoting_apply, EvalM.nestedNoting_apply]
    change Run.Told _ _ _ (if limits.depth < (run.depth + 1).toNat then _ else _)
      (if limits.depth < (run.depth + 1).toNat then _ else _)
    split
    · exact .failed (run.deeper EvalM.deepest).shallower rfl
    · exact (hm t (run.deeper EvalM.deepest)).comeUp
  countStep {n _ m _} hm t run := by
    rw [EvalM.countStep_bind_apply, EvalM.countStep_bind_apply]
    change Run.Told _ _ _ (if limits.steps ≤ run.steps then _ else _)
      (if limits.steps ≤ run.steps then _ else _)
    split
    · exact .failed run rfl
    · exact (hm t { run with steps := run.steps + 1 }).settle
  spent t run := .failed run rfl

/-! ## Evaluations with a trace -/

namespace Evaluation

def recorded (evaluation : Evaluation) (t : Trace) : Evaluation :=
  { evaluation with context := { evaluation.context with trace := some t } }

/-- The product that a trace notes after an evaluation, where `before` was noted before. -/
def noted (evaluation : Evaluation) (before : Option NodeId) : Option NodeId :=
  match evaluation.outcome with
  | .ok id => if evaluation.context.depth = 0 then some id else before
  | .error _ => before

def unruled (evaluation : Evaluation) : Nat :=
  match evaluation.outcome with
  | .ok _ => 0
  | .error e => e.unruled

end Evaluation

/-- Evaluation with a trace differs from evaluation without in the trace alone, which has one more
event for each step that found its rule. -/
theorem Context.eval_traced (context : Context) (t : Trace) (g : Graph) (subject formula : NodeId) :
    let plain := { context with trace := none }.eval g subject formula
    ∃ events : List Event, Event.NumberedFrom t.events.size events ∧
      plain.context.steps = context.steps + events.length + plain.unruled ∧
      { context with trace := some t }.eval g subject formula =
        plain.recorded { t.add events with result := plain.noted t.result } := by
  obtain ⟨limits, steps, depth, maxDepth, trace⟩ := context
  have hrun := (congruent_narrates limits).evaluate (limits.steps - steps) subject formula t
    ⟨g, steps, depth, maxDepth, none⟩
  simp only [eval]
  simp only [Run.telling] at hrun
  generalize evaluate limits (limits.steps - steps) subject formula
    ⟨g, steps, depth, maxDepth, none⟩ = plain at hrun ⊢
  generalize evaluate limits (limits.steps - steps) subject formula
    ⟨g, steps, depth, maxDepth, some t⟩ = traced at hrun ⊢
  cases hrun with
  | @ok id events run hnumbered hsteps =>
    refine ⟨events, hnumbered, hsteps, ?_⟩
    by_cases hzero : run.depth = 0
    · simp [hzero, Run.telling, Evaluation.recorded, Evaluation.noted]
    · simp [hzero, Run.telling, Evaluation.recorded, Evaluation.noted, Trace.add]
  | @error e events run hnumbered hsteps => exact ⟨events, hnumbered, hsteps, rfl⟩

/-! ## The events of a derivation -/

structure Event.Tells (g : Graph) (event : Event) (x : Application) : Prop where
  rule : event.rule = x.rule
  subject : g.Denotes event.subject x.subject
  formula : g.Denotes event.formula x.formula

theorem Traced.exists_events {g : Graph} {t : Trace} {l : List Application} {now : Option Trace}
    (ht : Traced g (some t) l now) :
    ∃ events, now = some (t.add events) ∧ List.Forall₂ (Event.Tells g) events l := by
  generalize hstart : some t = start at ht
  induction ht with
  | start => exact ⟨[], by rw [← hstart, Trace.add_nil], .nil⟩
  | @record l u rule s f a b _ hs hf ih =>
    obtain ⟨events, hu, htells⟩ := ih
    cases hu
    refine ⟨events ++ [⟨(t.add events).events.size, rule, s, f⟩], ?_, ?_⟩
    · rw [Trace.record_eq_add, Trace.add_add]
    · exact List.rel_append htells (.cons ⟨rfl, hs, hf⟩ .nil)
  | skip _ ih =>
    obtain ⟨_, hnone, _⟩ := ih
    cases hnone

namespace Noun

def rule? : Noun → Option Rule
  | .atom _ => none
  | .cell (.cell _ _) _ => some .autocons
  | .cell (.atom code) _ => (opcode code).toOption.map .opcode

theorem rule?_opcode (op : Opcode) (args : Noun) :
    (cell (atom op.toNat) args).rule? = some (.opcode op) := by
  cases op <;> rfl

theorem Derives.rule?_eq {a f p : Noun} {l : List Application} (h : Derives a f p l) :
    ∀ x ∈ l, x.formula.rule? = some x.rule := by
  induction h with
  | autocons _ _ ih ih' =>
    exact List.forall_mem_cons.mpr ⟨rfl, List.forall_mem_append.mpr ⟨ih, ih'⟩⟩
  | slot _ => exact List.forall_mem_singleton.mpr (rule?_opcode .slot _)
  | quote => exact List.forall_mem_singleton.mpr (rule?_opcode .quote _)
  | eval _ _ _ ih ih' ih'' =>
    exact List.forall_mem_cons.mpr ⟨rule?_opcode .eval _,
      List.forall_mem_append.mpr ⟨List.forall_mem_append.mpr ⟨ih, ih'⟩, ih''⟩⟩
  | isCell _ ih => exact List.forall_mem_cons.mpr ⟨rule?_opcode .isCell _, ih⟩
  | increment _ ih => exact List.forall_mem_cons.mpr ⟨rule?_opcode .increment _, ih⟩
  | same _ _ ih ih' =>
    exact List.forall_mem_cons.mpr ⟨rule?_opcode .same _, List.forall_mem_append.mpr ⟨ih, ih'⟩⟩
  | branch _ _ _ ih ih' =>
    exact List.forall_mem_cons.mpr ⟨rule?_opcode .branch _, List.forall_mem_append.mpr ⟨ih, ih'⟩⟩
  | compose _ _ ih ih' =>
    exact List.forall_mem_cons.mpr ⟨rule?_opcode .compose _, List.forall_mem_append.mpr ⟨ih, ih'⟩⟩
  | push _ _ ih ih' =>
    exact List.forall_mem_cons.mpr ⟨rule?_opcode .push _, List.forall_mem_append.mpr ⟨ih, ih'⟩⟩
  | pull _ _ _ ih ih' =>
    exact List.forall_mem_cons.mpr ⟨rule?_opcode .pull _, List.forall_mem_append.mpr ⟨ih, ih'⟩⟩
  | edit _ _ _ ih ih' =>
    exact List.forall_mem_cons.mpr ⟨rule?_opcode .edit _, List.forall_mem_append.mpr ⟨ih, ih'⟩⟩
  | dynamicHint _ _ ih ih' =>
    exact List.forall_mem_cons.mpr ⟨rule?_opcode .hint _, List.forall_mem_append.mpr ⟨ih, ih'⟩⟩
  | staticHint _ ih => exact List.forall_mem_cons.mpr ⟨rule?_opcode .hint _, ih⟩

theorem evaluate_sound (limits : Limits) (budget : Nat) (depth : UInt64) (a f : Noun) :
    Yields (evaluate limits budget depth a f) (Derives a f) :=
  (Yields.enter limits.depth (depth + 1)).bind fun _ r hr => by
    subst hr
    exact reduce_sound limits budget (depth + 1) a f

end Noun

/-- The events of an evaluation that has a product tell of the rules of its derivation. -/
theorem Graph.Denotes.exists_derivation {g : Graph} (wf : g.WellFormed) {subject formula p : NodeId}
    {a f : Noun} (hs : g.Denotes subject a) (hf : g.Denotes formula f) {context : Context}
    {t : Trace} {left : Evaluation}
    (hleft : { context with trace := some t }.eval g subject formula = left)
    (hp : left.outcome = .ok p) :
    ∃ v l events, left.graph.Denotes p v ∧ Noun.Derives a f v l ∧
      List.Forall₂ (Event.Tells left.graph) events l ∧
      left.context.trace.map (·.events) = some (t.add events).events := by
  have ht := hs.eval_tracks wf hf { context with trace := some t }
  rw [hleft] at ht
  generalize hmodel : Noun.evaluate _ _ _ _ _ _ = model at ht
  cases ht with
  | error _ => cases hp
  | @ok _ v ledger trace hd ht =>
    cases hp
    obtain ⟨rules, hrules, hderives⟩ := Noun.evaluate_sound _ _ _ a f hmodel
    obtain ⟨events, hevents, htells⟩ := ht.exists_events
    have hall : ledger.applied = rules := hrules
    rw [hall] at htells
    refine ⟨v, rules, events, hd, hderives, htells, ?_⟩
    dsimp only
    rw [hevents]
    split <;> rfl

/-! ## Series with a trace -/

namespace Context

/-- The products of a series, without the evaluations that have none. -/
def products (context : Context) : List Job → List NodeId
  | [] => []
  | job :: jobs =>
    (context.run job).outcome.toOption.toList ++ (context.run job).context.products jobs

theorem run_trace (context : Context) (t : Trace) (job : Job) :
    ∃ t', ({ context with trace := some t }.run job).context.trace = some t' ∧
      t'.result = if context.depth = 0 then
        ({ context with trace := some t }.run job).outcome.toOption.or t.result else t.result := by
  obtain ⟨events, _, _, htraced⟩ := context.eval_traced t job.graph job.subject job.formula
  have hdepth : ({ context with trace := none }.run job).context.depth = context.depth :=
    run_depth _ job
  rw [run, htraced]
  refine ⟨_, rfl, ?_⟩
  change ({ context with trace := none }.run job).noted t.result = _
  rw [Evaluation.noted, hdepth]
  change _ = if context.depth = 0 then
    ({ context with trace := none }.run job).outcome.toOption.or t.result else t.result
  cases ({ context with trace := none }.run job).outcome with
  | ok id => rfl
  | error e => exact (ite_self _).symm

/-- The product that the trace of a series notes is the last one, if the series was entered from
no other evaluation. -/
theorem after_trace (context : Context) (t : Trace) (jobs : List Job) :
    ∃ t', ({ context with trace := some t }.after jobs).trace = some t' ∧
      t'.result = if context.depth = 0 then
        ({ context with trace := some t }.products jobs).getLast?.or t.result else t.result := by
  induction jobs generalizing context t with
  | nil => exact ⟨t, rfl, by simp [products]⟩
  | cons job jobs ih =>
    obtain ⟨u, hu, hresult⟩ := context.run_trace t job
    have hnext : ({ context with trace := some t }.run job).context =
        { ({ context with trace := some t }.run job).context with trace := some u } := by
      rw [← hu]
    have hdepth : ({ context with trace := some t }.run job).context.depth = context.depth :=
      run_depth _ job
    obtain ⟨t', ht', hresult'⟩ := ih ({ context with trace := some t }.run job).context u
    rw [← hnext] at ht' hresult'
    refine ⟨t', ht', ?_⟩
    rw [hresult', hresult, hdepth, products]
    by_cases hzero : context.depth = 0
    · simp only [if_pos hzero]
      cases ({ context with trace := some t }.run job).outcome with
      | error e => rfl
      | ok id =>
        simp only [Except.toOption, Option.toList, List.singleton_append, List.getLast?_cons]
        cases List.getLast? _ <;> rfl
    · simp only [if_neg hzero]

end Context

namespace Graph

variable {g : Graph} {subject formula : NodeId}

/-- The trace is the derivation, and keeping it changes nothing. An evaluation with a trace is the
one without, and as many events are added to the trace as steps are taken, less the one whose
formula asks for no rule. The events are numbered on. If there is a product, they list the rules
of its derivation in order, each with the formula that asks for it. In a series, the trace notes
the last product. -/
theorem eval_records_derivation (wf : g.WellFormed) (hs : g.Stored subject) (hf : g.Stored formula)
    (context : Context) (t : Trace) :
    let plain := { context with trace := none }.eval g subject formula
    (∃ events : List Event,
      { context with trace := some t }.eval g subject formula =
        plain.recorded { t.add events with result := plain.noted t.result } ∧
      Event.NumberedFrom t.events.size events ∧
      plain.context.steps = context.steps + events.length + plain.unruled ∧
      ∀ p, plain.outcome = .ok p → ∃ a f v l,
        g.Denotes subject a ∧ g.Denotes formula f ∧ plain.graph.Denotes p v ∧
        Noun.Derives a f v l ∧ (∀ x ∈ l, x.formula.rule? = some x.rule) ∧
        List.Forall₂ (Event.Tells plain.graph) events l) ∧
    ∀ jobs : List Job, ∃ t', ({ context with trace := some t }.after jobs).trace = some t' ∧
      t'.result = if context.depth = 0 then
        ({ context with trace := some t }.products jobs).getLast?.or t.result else t.result := by
  intro plain
  obtain ⟨a, hs⟩ := exists_denotes wf hs
  obtain ⟨f, hf⟩ := exists_denotes wf hf
  obtain ⟨events, hnumbered, hsteps, htraced⟩ := context.eval_traced t g subject formula
  refine ⟨⟨events, htraced, hnumbered, hsteps, fun p hp => ?_⟩, context.after_trace t⟩
  obtain ⟨v, l, told, hd, hderives, htells, htrace⟩ := hs.exists_derivation wf hf htraced hp
  obtain rfl : events = told := Trace.events_add_inj (Option.some.inj htrace)
  exact ⟨a, f, v, l, hs, hf, hd, hderives, hderives.rule?_eq, htells⟩

/-- `[4 0 1]` applies two rules to its subject: the one of the increment, and then the one of the
slot. -/
theorem eval_records_increment :
    let subject := (empty ⟨0⟩).put (.atom 5)
    let formula := subject.2.put (.cell (.atom 4) (.cell (.atom 0) (.atom 1)))
    let traced := (Context.fresh ⟨9, 9⟩).traced.eval formula.2 subject.1 formula.1
    ∃ first second p, traced.context.trace = some ⟨#[first, second], some p⟩ ∧
      first.step = 0 ∧ first.rule = .opcode .increment ∧ second.step = 1 ∧
      second.rule = .opcode .slot ∧
      traced.graph.Denotes second.formula (.cell (.atom 0) (.atom 1)) := by
  intro subject formula traced
  obtain ⟨hg, hs⟩ := grows_put (wellFormed_empty ⟨0⟩) (.atom 5)
  obtain ⟨hg', hf⟩ := grows_put hg.wellFormed (.cell (.atom 4) (.cell (.atom 0) (.atom 1)))
  have hs' := hs.extend hg'.extend
  have hrun := eval_records_derivation hg'.wellFormed hs'.stored hf.stored (.fresh ⟨9, 9⟩) .empty
  have ht := hs'.eval_tracks hg'.wellFormed hf { Context.fresh ⟨9, 9⟩ with trace := none }
  change Evaluation.Tracks _ _ (.ok (.atom 6) ⟨[.atom 6], 2, 2,
    [⟨.opcode .increment, .atom 5, .cell (.atom 4) (.cell (.atom 0) (.atom 1))⟩,
      ⟨.opcode .slot, .atom 5, .cell (.atom 0) (.atom 1)⟩]⟩) _ at ht
  change (∃ events : List Event, traced = _ ∧ _) ∧ _ at hrun
  obtain ⟨⟨events, htraced, hnumbered, -, hproduct⟩, -⟩ := hrun
  clear_value traced
  generalize { Context.fresh ⟨9, 9⟩ with trace := none }.eval _ _ _ = plain at ht htraced hproduct
  cases ht with
  | @ok p _ _ _ hp _ =>
    obtain ⟨a, f, v, l, ha, hf', -, hderives, -, htells⟩ := hproduct p rfl
    obtain rfl := ha.functional hs'
    obtain rfl := hf'.functional hf
    cases hderives with
    | increment hslot =>
      cases hslot with
      | slot _ =>
        cases htells with
        | @cons first _ _ _ hfirst htells =>
          cases htells with
          | @cons second _ _ _ hsecond htells =>
            cases htells
            rw [htraced]
            exact ⟨first, second, p, rfl, hnumbered 0 (by simp), hfirst.rule, hnumbered 1 (by simp),
              hsecond.rule, hsecond.formula⟩

end Graph
end NockDispatch
