import NockDispatch.Eval.Rule

/-!
# Evaluation

`step` finds the rule that a formula asks for and applies it. `reduce` repeats this until
there is a product, counting each application as a step, and evaluates nested formulas by
itself, one level deeper. It is given a number of steps that it may try at most, which is
never in its way: a budget of what the step limit leaves is used up only when the limit is
reached.

`Context.eval` evaluates a formula in a context, and `Graph.nock` does so in a fresh one.
-/

namespace NockDispatch

def step (nested : Rule.Nested ν) (subject formula : NodeId) : EvalOn ν Outcome := do
  match ← EvalM.read (·.cell? formula) with
  | none => throw .atomFormula
  | some (head, args) =>
    match ← EvalM.read (·.cell? head) with
    | some _ =>
      EvalM.record .autocons subject formula
      Rule.distribute nested subject args head
    | none =>
      match ← EvalM.read (·.word? head) with
      | none => throw (.badOpcode (-1))
      | some code =>
        match Opcode.ofWord? code with
        | none => throw (.badOpcode code)
        | some op =>
          EvalM.record (.opcode op) subject formula
          Rule.apply nested subject args op

/-- Evaluate a formula, trying at most a number of steps. -/
def reduce (limits : Limits) (budget : Nat) (subject formula : NodeId) : EvalM NodeId :=
  match budget with
  | 0 => throw (.stepLimit limits.steps)
  | budget + 1 => do
    EvalM.countStep limits.steps
    let nested := fun subject formula =>
      EvalM.nested limits.depth (reduce limits budget subject formula)
    match ← step nested subject formula with
    | .product id => return id
    | .tail subject formula => reduce limits budget subject formula

def evaluate (limits : Limits) (budget : Nat) (subject formula : NodeId) : EvalM NodeId :=
  EvalM.nested limits.depth (reduce limits budget subject formula)

structure Evaluation where
  outcome : Except EvalError NodeId
  graph : Graph
  context : Context

/-- Evaluate a formula in a context. The trace, if there is one, notes the product when the
evaluation was not entered from within another one. That a nested evaluation may come up to depth 0
too, where the depth has wrapped, is left out. -/
def Context.eval (context : Context) (graph : Graph) (subject formula : NodeId) : Evaluation :=
  let ⟨limits, steps, depth, maxDepth, trace⟩ := context
  match evaluate limits (limits.steps - steps) subject formula
      ⟨graph, steps, depth, maxDepth, trace⟩ with
  | .ok id run =>
    let trace := if run.depth = 0 then run.trace.map ({ · with result := some id }) else run.trace
    ⟨.ok id, run.graph, ⟨limits, run.steps, run.depth, run.maxDepth, trace⟩⟩
  | .error error run =>
    ⟨.error error, run.graph, ⟨limits, run.steps, run.depth, run.maxDepth, run.trace⟩⟩

def Graph.nock (graph : Graph) (limits : Limits) (subject formula : NodeId) :
    Except EvalError NodeId × Graph :=
  let evaluation := (Context.fresh limits).eval graph subject formula
  (evaluation.outcome, evaluation.graph)

end NockDispatch
