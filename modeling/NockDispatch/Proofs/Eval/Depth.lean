import NockDispatch.Proofs.Eval.Congruence

/-!
# The depths of an evaluation

Whatever an evaluation ends with, it has come up again to the depth from which it went down. The
depths that it enters can be noted in any way without changing anything else: their list says which
ones they are, and the greatest of them is what an evaluation keeps. Each of them comes after the
first depth or after one within the limit, and so the counter is not in danger of wrapping unless it
starts at its greatest value or the limit lets it get there.
-/

namespace NockDispatch

/-! ## Depths that can be entered -/

/-- A depth that comes after the first one or after one within the limit. -/
def Enterable (limit : Nat) (first d : UInt64) : Prop :=
  ∃ before, d = before + 1 ∧ (before = first ∨ before.toNat ≤ limit)

theorem Enterable.toNat_le {limit : Nat} {first d : UInt64} (h : Enterable limit first d) :
    d.toNat ≤ max limit first.toNat + 1 := by
  obtain ⟨before, rfl, hbefore⟩ := h
  have hnext := toNat_succ_le before
  rcases hbefore with rfl | hbefore <;> omega

namespace Context

/-- Evaluate a formula in a context by a loop that is given. The depths that are entered are noted
from `start` on, and the greatest depth of the context is left as it was. -/
def evalBy (context : Context) (note : ν → UInt64 → ν) (start : ν) (loop : Loop ν) (graph : Graph)
    (subject formula : NodeId) : Evaluation × ν :=
  let ⟨limits, steps, depth, maxDepth, trace⟩ := context
  match EvalM.nestedNoting note limits.depth (loop subject formula)
      ⟨graph, steps, depth, start, trace⟩ with
  | .ok id run =>
    let trace := if run.depth = 0 then run.trace.map ({ · with result := some id }) else run.trace
    (⟨.ok id, run.graph, ⟨limits, run.steps, run.depth, maxDepth, trace⟩⟩, run.maxDepth)
  | .error error run =>
    (⟨.error error, run.graph, ⟨limits, run.steps, run.depth, maxDepth, run.trace⟩⟩, run.maxDepth)

def evalNoting (context : Context) (note : ν → UInt64 → ν) (start : ν) (graph : Graph)
    (subject formula : NodeId) : Evaluation × ν :=
  context.evalBy note start
    (Loop.rounds context.limits note (context.limits.steps - context.steps)
      (Loop.spent context.limits.steps)) graph subject formula

/-- The depths that an evaluation enters, the first one first. -/
def entered (context : Context) (graph : Graph) (subject formula : NodeId) : List UInt64 :=
  (context.evalNoting (fun before d => before ++ [d]) [] graph subject formula).2

end Context

def Evaluation.withDepth (evaluation : Evaluation) (maxDepth : Nat) : Evaluation :=
  { evaluation with context := { evaluation.context with maxDepth := maxDepth } }

def Context.evalWith (context : Context) (loop : Loop) (graph : Graph) (subject formula : NodeId) :
    Evaluation :=
  let (evaluation, maxDepth) :=
    context.evalBy EvalM.deepest context.maxDepth loop graph subject formula
  evaluation.withDepth maxDepth

namespace Context

variable (context : Context) (g : Graph) (subject formula : NodeId)

theorem eval_eq_evalWith :
    context.eval g subject formula =
      context.evalWith (Loop.rounds context.limits EvalM.deepest
        (context.limits.steps - context.steps) (Loop.spent context.limits.steps))
        g subject formula := by
  rw [← reduce_eq_rounds]
  obtain ⟨limits, steps, depth, maxDepth, trace⟩ := context
  simp only [eval, evalWith, evalBy, evaluate, EvalM.nested]
  generalize EvalM.nestedNoting _ _ _ _ = left
  cases left <;> rfl

theorem evalWith_withDepth (loop : Loop) :
    (context.evalWith loop g subject formula).withDepth context.maxDepth =
      (context.evalBy EvalM.deepest context.maxDepth loop g subject formula).1 := by
  obtain ⟨limits, steps, depth, maxDepth, trace⟩ := context
  simp only [evalWith, evalBy]
  generalize EvalM.nestedNoting _ _ _ _ = left
  cases left <;> rfl

end Context

/-! ## One computation that notes depths in two ways -/

/-- The ends of one computation that notes depths in two ways. It ends at the depth at which it
starts, the same depths were entered, and one of them was too deep if it failed for that. -/
inductive Run.Noted (limit : Nat) (first depth : UInt64) (note : ν → UInt64 → ν)
    (note' : ν' → UInt64 → ν') (start : ν) (start' : ν') :
    EStateM.Result EvalError (Run ν) α → EStateM.Result EvalError (Run ν') α → Prop
  | ok {x graph steps trace} (entered : List UInt64) : (∀ d ∈ entered, Enterable limit first d) →
      Noted limit first depth note note' start start'
        (.ok x ⟨graph, steps, depth, entered.foldl note start, trace⟩)
        (.ok x ⟨graph, steps, depth, entered.foldl note' start', trace⟩)
  | error {e graph steps trace} (entered : List UInt64) :
      (∀ d ∈ entered, Enterable limit first d) →
      (∀ n, e = .depthLimit n → n = limit ∧ ∃ d ∈ entered, limit < d.toNat) →
      Noted limit first depth note note' start start'
        (.error e ⟨graph, steps, depth, entered.foldl note start, trace⟩)
        (.error e ⟨graph, steps, depth, entered.foldl note' start', trace⟩)

/-- At a depth, the two computations are one, but for how they note the depths. -/
def Notes (limit : Nat) (first depth : UInt64) (note : ν → UInt64 → ν) (note' : ν' → UInt64 → ν') :
    Comparison ν ν' := fun _ _ _ m m' =>
  ∀ (graph : Graph) (steps : Nat) (start : ν) (start' : ν') (trace : Option Trace),
    Run.Noted limit first depth note note' start start' (m ⟨graph, steps, depth, start, trace⟩)
      (m' ⟨graph, steps, depth, start', trace⟩)

section

variable {limit steps : Nat} {first depth : UInt64} {note : ν → UInt64 → ν}
  {note' : ν' → UInt64 → ν'} {start : ν} {start' : ν'} {graph : Graph} {trace : Option Trace}
  {left : EStateM.Result EvalError (Run ν) α} {right : EStateM.Result EvalError (Run ν') α}

namespace Run.Noted

theorem nothing (x : α) : Noted limit first depth note note' start start'
    (.ok x ⟨graph, steps, depth, start, trace⟩) (.ok x ⟨graph, steps, depth, start', trace⟩) :=
  .ok [] (List.forall_mem_nil _)

theorem failed {e : EvalError} (he : ∀ n, e ≠ .depthLimit n) :
    Noted limit first depth note note' start start'
      (.error e ⟨graph, steps, depth, start, trace⟩ : EStateM.Result EvalError (Run ν) α)
      (.error e ⟨graph, steps, depth, start', trace⟩) :=
  .error [] (List.forall_mem_nil _) fun n hn => absurd hn (he n)

theorem after (entered : List UInt64) (hentered : ∀ d ∈ entered, Enterable limit first d)
    (h : Noted limit first depth note note' (entered.foldl note start) (entered.foldl note' start')
      left right) : Noted limit first depth note note' start start' left right := by
  have happend {more : List UInt64} (hmore : ∀ d ∈ more, Enterable limit first d) :
      ∀ d ∈ entered ++ more, Enterable limit first d := fun d hd =>
    (List.mem_append.mp hd).elim (hentered d) (hmore d)
  cases h with
  | ok more hmore =>
    rw [← List.foldl_append, ← List.foldl_append]
    exact .ok (entered ++ more) (happend hmore)
  | error more hmore hdeep =>
    rw [← List.foldl_append, ← List.foldl_append]
    refine .error (entered ++ more) (happend hmore) fun n hn => ?_
    obtain ⟨hlimit, d, hd, hlt⟩ := hdeep n hn
    exact ⟨hlimit, d, List.mem_append_right entered hd, hlt⟩

theorem comeUp (h : Noted limit first (depth + 1) note note' start start' left right) :
    Noted limit first depth note note' start start' (Run.comeUp left) (Run.comeUp right) := by
  rw [← UInt64.add_sub_cancel depth 1]
  cases h with
  | ok entered hentered => exact .ok entered hentered
  | error entered hentered hdeep => exact .error entered hentered hdeep

end Run.Noted

theorem composes_notes : (Notes limit first depth note note').Composes steps steps where
  pure _ _ x _ _ _ _ _ := .nothing x
  bind {_ _ _ _ m m' k k'} hm hk graph now start start' trace := by
    change Run.Noted _ _ _ _ _ _ _ (EStateM.bind m k _) (EStateM.bind m' k' _)
    unfold EStateM.bind
    have hfirst := hm graph now start start' trace
    generalize m ⟨graph, now, depth, start, trace⟩ = left at hfirst ⊢
    generalize m' ⟨graph, now, depth, start', trace⟩ = right at hfirst ⊢
    cases hfirst with
    | ok entered hentered => exact .after entered hentered (hk _ _ _ _ _ _)
    | error entered hentered hdeep => exact .error entered hentered hdeep
  read hk graph now start start' trace := hk _ graph now start start' trace
  store _ _ _ _ _ _ _ _ := .nothing _
  record _ _ _ _ _ _ _ _ trace := by
    cases trace <;> exact .nothing ()
  fail _ _ _ he _ _ _ _ _ _ := .failed fun n hn => he (hn ▸ trivial)
  ruleless _ _ _ he _ _ _ _ _ := .failed fun n hn => he.not_isLimit (hn ▸ trivial)
  countStep {_ _ m m'} hm graph now start start' trace := by
    rw [EvalM.countStep_bind_apply, EvalM.countStep_bind_apply]
    change Run.Noted _ _ _ _ _ _ _ (if steps ≤ now then _ else _) (if steps ≤ now then _ else _)
    split
    · exact .failed fun n hn => by cases hn
    · exact hm graph (now + 1) start start' trace

/-- Only a depth that is within the limit leads on, and from there it goes up again. -/
theorem notes_nested {n : Nat} {m : EvalOn ν α} {m' : EvalOn ν' α}
    (hdepth : depth = first ∨ depth.toNat ≤ limit)
    (hbody : (depth + 1).toNat ≤ limit →
      Notes limit first (depth + 1) note note' .settled n m m') :
    Notes limit first depth note note' .settled n (EvalM.nestedNoting note limit m)
      (EvalM.nestedNoting note' limit m') := by
  intro graph steps start start' trace
  have hentered : ∀ d ∈ [depth + 1], Enterable limit first d :=
    List.forall_mem_singleton.mpr ⟨depth, rfl, hdepth⟩
  apply Run.Noted.comeUp
  change Run.Noted _ _ _ _ _ _ _ (if limit < (depth + 1).toNat then _ else _)
    (if limit < (depth + 1).toNat then _ else _)
  split
  · next hdeep =>
    exact .error [depth + 1] hentered fun n hn =>
      ⟨(EvalError.depthLimit.inj hn).symm, depth + 1, List.mem_singleton_self _, hdeep⟩
  · next hfits => exact .after [depth + 1] hentered (hbody (Nat.le_of_not_lt hfits) _ _ _ _ _)

theorem notes_rounds (limits : Limits) (n : Nat)
    (hdepth : depth = first ∨ depth.toNat ≤ limits.depth) (subject formula : NodeId) :
    Notes limits.depth first depth note note' .settled n
      (Loop.rounds limits note n (Loop.spent limits.steps) subject formula)
      (Loop.rounds limits note' n (Loop.spent limits.steps) subject formula) := by
  induction n generalizing depth subject formula with
  | zero => exact fun _ _ _ _ _ => .failed fun n hn => by cases hn
  | succ n ih =>
    exact composes_notes.round
      (fun s f => notes_nested hdepth fun hfits => ih (.inr hfits) s f) (ih hdepth) subject formula

theorem notes_evaluate (note : ν → UInt64 → ν) (note' : ν' → UInt64 → ν') (limits : Limits)
    (n : Nat) (depth : UInt64) (subject formula : NodeId) :
    Notes limits.depth depth depth note note' .settled n
      (EvalM.nestedNoting note limits.depth
        (Loop.rounds limits note n (Loop.spent limits.steps) subject formula))
      (EvalM.nestedNoting note' limits.depth
        (Loop.rounds limits note' n (Loop.spent limits.steps) subject formula)) :=
  notes_nested (.inl rfl) fun hfits => notes_rounds limits n (.inr hfits) subject formula

end

/-! ## The depths in order -/

namespace Context

variable (context : Context) (g : Graph) (subject formula : NodeId)

theorem evalNoting_pair (note : ν → UInt64 → ν) (note' : ν' → UInt64 → ν') (start : ν)
    (start' : ν') :
    ∃ entered : List UInt64,
      (∀ d ∈ entered, Enterable context.limits.depth context.depth d) ∧
      context.evalNoting note start g subject formula =
        ((context.evalNoting note' start' g subject formula).1, entered.foldl note start) ∧
      (context.evalNoting note' start' g subject formula).2 = entered.foldl note' start' ∧
      (context.evalNoting note' start' g subject formula).1.context.depth = context.depth ∧
      ∀ n, (context.evalNoting note' start' g subject formula).1.outcome = .error (.depthLimit n) →
        n = context.limits.depth ∧ ∃ d ∈ entered, context.limits.depth < d.toNat := by
  obtain ⟨limits, steps, depth, maxDepth, trace⟩ := context
  have hnoted := notes_evaluate note note' limits (limits.steps - steps) depth subject formula g steps
    start start' trace
  simp only [evalNoting, evalBy]
  generalize EvalM.nestedNoting note _ _ _ = left at hnoted ⊢
  generalize EvalM.nestedNoting note' _ _ _ = right at hnoted ⊢
  cases hnoted with
  | ok entered hentered => exact ⟨entered, hentered, rfl, rfl, rfl, fun n hn => by cases hn⟩
  | error entered hentered hdeep =>
    exact ⟨entered, hentered, rfl, rfl, rfl, fun n hn => hdeep n (Except.error.inj hn)⟩

theorem foldl_snoc (entered before : List α) :
    entered.foldl (fun before d => before ++ [d]) before = before ++ entered := by
  rw [List.foldl_append_eq_append, ← List.flatMap_def, List.flatMap_singleton']

/-- However the depths are noted, it is those that the evaluation enters that are noted, and
nothing else changes. -/
theorem evalNoting_eq (note : ν → UInt64 → ν) (start : ν) :
    context.evalNoting note start g subject formula =
      ((context.eval g subject formula).withDepth context.maxDepth,
        (context.entered g subject formula).foldl note start) := by
  obtain ⟨list, -, hnote, hlist, -⟩ := context.evalNoting_pair g subject formula note
    (fun before d => before ++ [d]) start []
  obtain ⟨list', -, hmax, -, -⟩ := context.evalNoting_pair g subject formula EvalM.deepest
    (fun before d => before ++ [d]) context.maxDepth []
  rw [foldl_snoc, List.nil_append] at hlist
  rw [hnote, eval_eq_evalWith, evalWith_withDepth, entered, hlist]
  exact congrArg (·, list.foldl note start) (congrArg Prod.fst hmax).symm

/-- A product or any error: an evaluation has come up again to where it went down from. -/
theorem eval_depth : (context.eval g subject formula).context.depth = context.depth := by
  obtain ⟨-, -, -, -, hdepth, -⟩ := context.evalNoting_pair g subject formula EvalM.deepest
    EvalM.deepest context.maxDepth context.maxDepth
  rw [evalNoting_eq] at hdepth
  exact hdepth

end Context
end NockDispatch
