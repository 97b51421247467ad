import Mathlib.Algebra.GroupWithZero.Nat
import NockDispatch.Proofs.Eval.Depth
import NockDispatch.Proofs.Eval.Nock

/-!
# Evaluations that share a context

Evaluations in one context draw on one supply of steps. What the counters have come to so far can
be taken off the step limit instead, and put back afterwards: an evaluation in a context is one in
a context without a past that is held to the steps that are left. So a series of evaluations takes
the steps of separate ones, in sum, and goes as deep as the deepest of them.
-/

namespace NockDispatch

/-! ## Going on with what was taken before -/

/-- An error as it reads under a step limit. -/
def EvalError.under (limit : Nat) : EvalError → EvalError
  | stepLimit _ => stepLimit limit
  | e => e

theorem EvalError.under_of_not_limit {limit : Nat} {e : EvalError} (he : ¬ e.IsLimit) :
    e.under limit = e := by
  cases e with
  | stepLimit _ => exact absurd trivial he
  | _ => rfl

namespace Run

/-- A run that some steps were taken and some depth was reached before. -/
def after (steps maxDepth : Nat) (run : Run) : Run :=
  { run with steps := steps + run.steps, maxDepth := max maxDepth run.maxDepth }

def resume (limit steps maxDepth : Nat) :
    EStateM.Result EvalError Run α → EStateM.Result EvalError Run α
  | .ok x run => .ok x (run.after steps maxDepth)
  | .error e run => .error (e.under limit) (run.after steps maxDepth)

theorem comeUp_resume {limit steps maxDepth : Nat} (left : EStateM.Result EvalError Run α) :
    comeUp (resume limit steps maxDepth left) = resume limit steps maxDepth (comeUp left) := by
  cases left <;> rfl

end Run

/-- The first computation goes on from where the second one starts without a past. -/
def Resumes (limit steps maxDepth : Nat) : Comparison := fun _ _ _ m m' =>
  ∀ run : Run, m (run.after steps maxDepth) = Run.resume limit steps maxDepth (m' run)

/-- Steps that were taken before leave as many less under the limit. -/
theorem congruent_resumes (limits : Limits) (steps maxDepth : Nat) :
    (Resumes limits.steps steps maxDepth).Congruent limits
      { limits with steps := limits.steps - steps } where
  pure _ _ _ _ := rfl
  bind {_ _ _ _ m m' k k'} hm hk run := by
    change EStateM.bind m k _ = Run.resume _ _ _ (EStateM.bind m' k' run)
    unfold EStateM.bind
    rw [hm run]
    cases m' run with
    | ok x run' => exact hk x run'
    | error e run' => rfl
  read hk run := hk _ run
  store _ _ _ _ := rfl
  record _ _ _ _ run := by
    obtain ⟨graph, steps', depth, maxDepth', trace⟩ := run
    cases trace <;> rfl
  fail _ _ _ he _ run := by
    change EStateM.Result.error _ _ = EStateM.Result.error _ _
    rw [EvalError.under_of_not_limit he]
  ruleless _ _ e he run := by
    change EStateM.Result.error _ _ = EStateM.Result.error _ _
    rw [EvalError.under_of_not_limit he.not_isLimit]
  nested {_ _ m m'} hm run := by
    have hdown : (run.after steps maxDepth).deeper EvalM.deepest =
        (run.deeper EvalM.deepest).after steps maxDepth := by
      simp only [Run.deeper, Run.after, EvalM.deepest, Nat.max_assoc]
    rw [EvalM.nested, EvalM.nested, EvalM.nestedNoting_apply, EvalM.nestedNoting_apply, hdown]
    change (if limits.depth < (run.depth + 1).toNat then _ else _) = _
    split
    · rfl
    · rw [hm]
      exact Run.comeUp_resume _
  countStep {_ _ m m'} hm run := by
    have hleft : limits.steps ≤ (run.after steps maxDepth).steps ↔
        limits.steps - steps ≤ run.steps := Nat.sub_le_iff_le_add'.symm
    rw [EvalM.countStep_bind_apply, EvalM.countStep_bind_apply]
    by_cases hspent : limits.steps - steps ≤ run.steps
    · rw [if_pos hspent, if_pos (hleft.mpr hspent)]
      rfl
    · rw [if_neg hspent, if_neg (mt hleft.mp hspent)]
      exact hm { run with steps := run.steps + 1 }
  spent _ := rfl

/-! ## Contexts -/

namespace Context

/-- A context without a past that has only the steps of another one that are left. -/
def remaining (context : Context) : Context where
  limits := { context.limits with steps := context.limits.steps - context.steps }
  steps := 0
  depth := context.depth
  maxDepth := 0
  trace := context.trace

/-- A context once what was done with its remaining steps is added. -/
def add (context later : Context) : Context where
  limits := context.limits
  steps := context.steps + later.steps
  depth := later.depth
  maxDepth := max context.maxDepth later.maxDepth
  trace := later.trace

end Context

/-- What is done with the remaining steps of a context, as it is seen from there. -/
def Evaluation.within (evaluation : Evaluation) (context : Context) : Evaluation where
  outcome := evaluation.outcome.mapError (·.under context.limits.steps)
  graph := evaluation.graph
  context := context.add evaluation.context

/-- An evaluation in a context is one without a past that has only the steps that are left. -/
theorem Context.eval_eq_remaining (context : Context) (g : Graph) (subject formula : NodeId) :
    context.eval g subject formula = (context.remaining.eval g subject formula).within context := by
  obtain ⟨limits, steps, depth, maxDepth, trace⟩ := context
  have hrun := (congruent_resumes limits steps maxDepth).evaluate (limits.steps - steps) subject
    formula ⟨g, 0, depth, 0, trace⟩
  simp only [Run.after, Nat.add_zero, Nat.max_zero] at hrun
  simp only [eval, remaining, hrun, Nat.sub_zero]
  generalize evaluate _ _ _ _ _ = left
  cases left with
  | ok id run => rfl
  | error e run => rfl

/-! ## Series of evaluations -/

/-- A formula and a subject in a graph, which may be the graph that the one before has left or any
other one. -/
structure Job where
  graph : Graph
  subject : NodeId
  formula : NodeId

namespace Context

def run (context : Context) (job : Job) : Evaluation :=
  context.eval job.graph job.subject job.formula

def after (context : Context) (jobs : List Job) : Context :=
  jobs.foldl (fun context job => (context.run job).context) context

/-- The same formulas one by one, each in a context without a past that has only the steps that
are left. -/
def separately (context : Context) : List Job → List Evaluation
  | [] => []
  | job :: jobs => context.remaining.run job :: (context.run job).context.separately jobs

variable {context : Context} {job : Job} {jobs : List Job}

theorem after_append (context : Context) (jobs more : List Job) :
    context.after (jobs ++ more) = (context.after jobs).after more :=
  List.foldl_append

theorem separately_append (context : Context) (jobs more : List Job) :
    context.separately (jobs ++ more) =
      context.separately jobs ++ (context.after jobs).separately more := by
  induction jobs generalizing context with
  | nil => rfl
  | cons job jobs ih => exact congrArg (context.remaining.run job :: ·) (ih _)

theorem run_limits (context : Context) (job : Job) :
    (context.run job).context.limits = context.limits := by
  rw [run, eval_eq_remaining]
  rfl

theorem run_depth (context : Context) (job : Job) :
    (context.run job).context.depth = context.depth :=
  context.eval_depth job.graph job.subject job.formula

theorem after_limits (context : Context) (jobs : List Job) :
    (context.after jobs).limits = context.limits := by
  induction jobs generalizing context with
  | nil => rfl
  | cons job jobs ih => exact (ih _).trans (context.run_limits job)

theorem after_depth (context : Context) (jobs : List Job) :
    (context.after jobs).depth = context.depth := by
  induction jobs generalizing context with
  | nil => rfl
  | cons job jobs ih => exact (ih _).trans (context.run_depth job)

theorem after_steps (context : Context) (jobs : List Job) :
    (context.after jobs).steps =
      context.steps + ((context.separately jobs).map (·.context.steps)).sum := by
  induction jobs generalizing context with
  | nil => rfl
  | cons job jobs ih =>
    have hone : (context.run job).context.steps =
        context.steps + (context.remaining.run job).context.steps := by
      rw [run, eval_eq_remaining]
      rfl
    rw [after, List.foldl_cons, ← after, ih, hone, separately, List.map_cons, List.sum_cons,
      Nat.add_assoc]

theorem after_maxDepth (context : Context) (jobs : List Job) :
    (context.after jobs).maxDepth =
      ((context.separately jobs).map (·.context.maxDepth)).foldl max context.maxDepth := by
  induction jobs generalizing context with
  | nil => rfl
  | cons job jobs ih =>
    have hone : (context.run job).context.maxDepth =
        max context.maxDepth (context.remaining.run job).context.maxDepth := by
      rw [run, eval_eq_remaining]
      rfl
    rw [after, List.foldl_cons, ← after, ih, hone]
    rfl

end Context

/-! ## Series that have run out of steps -/

/-- How a run stands to a step limit and a depth: the budget reaches to the limit, and the depth
was reached. -/
structure Run.Within (limit budget depth : Nat) (run : Run) : Prop where
  budget : limit ≤ run.steps + budget
  reached : depth ≤ run.maxDepth

/-- A computation keeps a run where it stands, and when it fails for want of steps there are none
left. -/
inductive Run.Keeps (limit budget depth : Nat) : EStateM.Result EvalError Run α → Prop
  | ok {x run} : run.Within limit budget depth → Keeps limit budget depth (.ok x run)
  | error {e run} : run.Within limit budget depth →
      (∀ n, e = .stepLimit n → run.Within limit 0 depth) → Keeps limit budget depth (.error e run)

def Exhausts (limit depth : Nat) : Comparison := fun _ budget _ m _ =>
  ∀ ⦃run : Run⦄, run.Within limit budget depth → Run.Keeps limit budget depth (m run)

theorem Run.Within.fail {limit budget depth : Nat} {run : Run} (h : run.Within limit budget depth)
    {e : EvalError} (he : ¬ e.IsLimit) :
    Keeps limit budget depth (.error e run : EStateM.Result EvalError Run α) :=
  .error h fun _ hstep => absurd (hstep ▸ trivial) he

theorem Run.Within.shallower {limit budget depth : Nat} {run : Run}
    (h : run.Within limit budget depth) : run.shallower.Within limit budget depth :=
  ⟨h.budget, h.reached⟩

theorem Run.Keeps.comeUp {limit budget depth : Nat} {left : EStateM.Result EvalError Run α}
    (h : Run.Keeps limit budget depth left) : Run.Keeps limit budget depth (Run.comeUp left) := by
  cases h with
  | ok h => exact .ok h.shallower
  | error h hstep => exact .error h.shallower fun n hn => (hstep n hn).shallower

theorem congruent_exhausts (limits : Limits) (depth : Nat) :
    (Exhausts limits.steps depth).Congruent limits limits where
  pure _ _ _ _ h := .ok h
  bind {_ _ _ _ m _ k _} hm hk run h := by
    change Run.Keeps _ _ _ (EStateM.bind m k run)
    unfold EStateM.bind
    have hfirst := hm h
    generalize m run = left at hfirst ⊢
    cases hfirst with
    | ok h => exact hk _ h
    | error h hstep => exact .error h hstep
  read hk run h := hk _ h
  store _ _ _ _ h := .ok ⟨h.budget, h.reached⟩
  record _ _ _ _ run h := by
    obtain ⟨graph, steps, now, maxDepth, trace⟩ := run
    cases trace <;> exact .ok ⟨h.budget, h.reached⟩
  fail _ _ _ he _ _ h := h.fail he
  ruleless _ _ _ he _ h := h.fail he.not_isLimit
  nested {_ _ m _} hm run h := by
    have hdown : Run.Within limits.steps _ depth (run.deeper EvalM.deepest) :=
      ⟨h.budget, Nat.le_trans h.reached (Nat.le_max_left _ _)⟩
    rw [EvalM.nested, EvalM.nestedNoting_apply]
    split
    · exact .error hdown.shallower fun _ hstep => by cases hstep
    · exact (hm hdown).comeUp
  countStep {n _ m _} hm run h := by
    rw [EvalM.countStep_bind_apply]
    by_cases hspent : limits.steps ≤ run.steps
    · rw [if_pos hspent]
      exact .error h fun _ _ => ⟨hspent, h.reached⟩
    · rw [if_neg hspent]
      have hbudget := h.budget
      have hleft := @hm { run with steps := run.steps + 1 } ⟨by dsimp only; omega, h.reached⟩
      have hback : ∀ {run : Run}, run.Within limits.steps n depth →
          run.Within limits.steps (n + 1) depth := fun h => ⟨by have := h.budget; omega, h.reached⟩
      generalize m _ = left at hleft ⊢
      cases hleft with
      | ok h => exact .ok (hback h)
      | error h hstep => exact .error (hback h) hstep
  spent h := .error h fun _ _ => h

namespace Context

variable {context : Context} {job : Job}

/-- No step is left, and the depth of an evaluation is within its limit and was reached. -/
structure Spent (context : Context) : Prop where
  steps : context.limits.steps ≤ context.steps
  reached : (context.depth + 1).toNat ≤ context.maxDepth
  depth : (context.depth + 1).toNat ≤ context.limits.depth

theorem spent_of_stepLimit {n : Nat} (hdepth : (context.depth + 1).toNat ≤ context.limits.depth)
    (h : (context.run job).outcome = .error (.stepLimit n)) : (context.run job).context.Spent := by
  have hsame := context.run_depth job
  have hlimits := context.run_limits job
  obtain ⟨limits, steps, depth, maxDepth, trace⟩ := context
  dsimp only at hdepth hsame hlimits
  have hwithin : Run.Within limits.steps (limits.steps - steps) (depth + 1).toNat
      (Run.deeper EvalM.deepest ⟨job.graph, steps, depth, maxDepth, trace⟩) :=
    ⟨by simp only [Run.deeper]; omega, Nat.le_max_right _ _⟩
  have hkeep := ((congruent_exhausts limits (depth + 1).toNat).reduce (limits.steps - steps)
    job.subject job.formula hwithin).comeUp
  have hrun : evaluate limits (limits.steps - steps) job.subject job.formula
      ⟨job.graph, steps, depth, maxDepth, trace⟩ = Run.comeUp (reduce limits (limits.steps - steps)
        job.subject job.formula
        (Run.deeper EvalM.deepest ⟨job.graph, steps, depth, maxDepth, trace⟩)) := by
    rw [evaluate, EvalM.nested, EvalM.nestedNoting_apply, if_neg (Nat.not_lt.mpr hdepth)]
  rw [run, eval] at h hsame hlimits ⊢
  dsimp only at h hsame hlimits ⊢
  rw [hrun] at h hsame hlimits ⊢
  generalize Run.comeUp _ = left at hkeep h hsame hlimits ⊢
  cases hkeep with
  | ok _ => cases h
  | error _ hstep =>
    cases h
    have hend := hstep n rfl
    exact ⟨hend.budget, hsame ▸ hend.reached, hsame ▸ hdepth⟩

/-- When no step is left, every evaluation fails at once and changes nothing. -/
theorem Spent.run_eq (hc : context.Spent) (job : Job) :
    context.run job = ⟨.error (.stepLimit context.limits.steps), job.graph, context⟩ := by
  obtain ⟨limits, steps, depth, maxDepth, trace⟩ := context
  obtain ⟨hsteps, hreached, hdepth⟩ := hc
  dsimp only at hsteps hreached hdepth
  have hrun : evaluate limits (limits.steps - steps) job.subject job.formula
      ⟨job.graph, steps, depth, maxDepth, trace⟩ =
        .error (.stepLimit limits.steps) ⟨job.graph, steps, depth, maxDepth, trace⟩ := by
    rw [evaluate, EvalM.nested, EvalM.nestedNoting_apply, if_neg (Nat.not_lt.mpr hdepth),
      Nat.sub_eq_zero_of_le hsteps]
    change EStateM.Result.error _ (Run.mk _ _ (depth + 1 - 1) (max maxDepth _) _) = _
    rw [UInt64.add_sub_cancel, Nat.max_eq_left hreached]
  rw [run, eval]
  dsimp only
  rw [hrun]

theorem Spent.after_eq (hc : context.Spent) (jobs : List Job) : context.after jobs = context := by
  induction jobs with
  | nil => rfl
  | cons job jobs ih =>
    rw [after, List.foldl_cons, hc.run_eq]
    exact ih

/-- Once an evaluation of a series has failed for want of steps, there are none left. -/
theorem spent_after {before rest : List Job} {n : Nat}
    (hdepth : (context.depth + 1).toNat ≤ context.limits.depth)
    (h : ((context.after before).run job).outcome = .error (.stepLimit n)) :
    (context.after (before ++ job :: rest)).Spent := by
  have hspent : ((context.after before).run job).context.Spent :=
    spent_of_stepLimit (by rwa [after_depth, after_limits]) h
  rw [after_append, after, List.foldl_cons, ← after, hspent.after_eq]
  exact hspent

/-- One context is a shared supply. Each evaluation of a series is that of a fresh context with
the steps that are left, except that it names the limit of all; steps are added up, and the depth
is the greatest. Once the steps have run out, every evaluation that is still to come fails at once
and leaves everything as it is. -/
theorem run_shares_steps (limits : Limits) (trace : Option Trace) (past : List Job) (job : Job) :
    let start : Context := { Context.fresh limits with trace := trace }
    let now := start.after past
    let run := now.run job
    let alone := Context.run { Context.fresh ⟨limits.steps - now.steps, limits.depth⟩ with
      trace := now.trace } job
    run.outcome = alone.outcome.mapError (·.under limits.steps) ∧
    run.graph = alone.graph ∧ run.context.trace = alone.context.trace ∧
    run.context.depth = 0 ∧
    start.separately (past ++ [job]) = start.separately past ++ [alone] ∧
    run.context.steps = ((start.separately (past ++ [job])).map (·.context.steps)).sum ∧
    run.context.maxDepth =
      ((start.separately (past ++ [job])).map (·.context.maxDepth)).foldl max 0 ∧
    (0 < limits.depth →
      (∃ before job' rest n, past = before ++ job' :: rest ∧
        ((start.after before).run job').outcome = .error (.stepLimit n)) →
      run = ⟨.error (.stepLimit limits.steps), job.graph, now⟩) := by
  intro start now run alone
  have hlimits : now.limits = limits := start.after_limits past
  have hdepth : now.depth = 0 := start.after_depth past
  have halone : alone = now.remaining.run job := by
    simp only [alone, remaining, Context.fresh, hlimits, hdepth]
  have hrun : run = alone.within now := halone ▸ now.eval_eq_remaining _ _ _
  have hseparate : start.separately (past ++ [job]) = start.separately past ++ [alone] := by
    rw [separately_append, halone]
    rfl
  have hafter : start.after (past ++ [job]) = run.context := start.after_append past [job]
  refine ⟨?_, ?_, ?_, ?_, hseparate, ?_, ?_, ?_⟩
  · rw [hrun, ← hlimits]
    rfl
  · rw [hrun]
    rfl
  · rw [hrun]
    rfl
  · rw [← hafter, after_depth]
    rfl
  · rw [← hafter, after_steps]
    exact Nat.zero_add _
  · rw [← hafter, after_maxDepth]
    rfl
  · rintro hpositive ⟨before, job', rest, n, rfl, h⟩
    have hspent : now.Spent := spent_after hpositive h
    rw [← hlimits]
    exact hspent.run_eq job

/-- With one step for all, `[1 6]` has its product once. The second evaluation runs out of steps,
and the third one changes nothing any more. -/
theorem run_shares_steps_quote :
    let subject := (Graph.empty ⟨0⟩).put (.atom 5)
    let formula := subject.2.put (.cell (.atom 1) (.atom 6))
    let job : Job := ⟨formula.2, subject.1, formula.1⟩
    let start : Context := { Context.fresh ⟨1, 1⟩ with trace := some .empty }
    (∃ id, (start.run job).outcome = .ok id) ∧
      ((start.after [job]).run job).outcome = .error (.stepLimit 1) ∧
      (start.after [job, job]).run job =
        ⟨.error (.stepLimit 1), job.graph, start.after [job, job]⟩ := by
  intro subject formula job start
  obtain ⟨hg, hs⟩ := Graph.grows_put (Graph.wellFormed_empty ⟨0⟩) (.atom 5)
  obtain ⟨hg', hf⟩ := Graph.grows_put hg.wellFormed (.cell (.atom 1) (.atom 6))
  have ht := (hs.extend hg'.extend).eval_tracks hg'.wellFormed hf start
  have hmodel : Noun.evaluate start.limits (start.limits.steps - start.steps) start.depth (.atom 5)
      (.cell (.atom 1) (.atom 6)) (.fresh start.steps start.maxDepth) =
        .ok (.atom 6) ⟨[], 1, 1, [⟨.opcode .quote, .atom 5, .cell (.atom 1) (.atom 6)⟩]⟩ := rfl
  rw [hmodel] at ht
  have hfirst : (∃ id, (start.run job).outcome = .ok id) ∧ (start.run job).context.Spent := by
    change (∃ id, (start.eval formula.2 subject.1 formula.1).outcome = .ok id) ∧
      (start.eval formula.2 subject.1 formula.1).context.Spent
    generalize start.eval formula.2 subject.1 formula.1 = left at ht ⊢
    cases ht with
    | ok _ _ => exact ⟨⟨_, rfl⟩, ⟨Nat.le_refl 1, Nat.le_refl 1, Nat.zero_lt_one⟩⟩
  have hsecond : ((start.after [job]).run job).outcome = .error (.stepLimit 1) := by
    rw [after, List.foldl_cons, List.foldl_nil, hfirst.2.run_eq, run_limits]
    rfl
  exact ⟨hfirst.1, hsecond, (run_shares_steps ⟨1, 1⟩ (some .empty) [job, job] job).2.2.2.2.2.2.2
    Nat.zero_lt_one ⟨[job], job, [], 1, rfl, hsecond⟩⟩

end Context
end NockDispatch
