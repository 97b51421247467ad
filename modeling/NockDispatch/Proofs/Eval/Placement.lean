import NockDispatch.Proofs.Eval.Nock

/-!
# Evaluation does not see where nouns are stored

Two graphs give the same noun different ids, and one of them may hold already what the other
one has yet to store. An evaluation on either keeps step with the same evaluation of nouns,
and so the two end alike and leave the same counters.
-/

namespace NockDispatch

/-- Two evaluations, each in a graph of its own, have products that denote the same noun or fail
for the same reason, and leave the same counters. -/
structure Evaluation.Alike (left right : Evaluation) : Prop where
  outcome : SameOutcome (left.outcome, left.graph) (right.outcome, right.graph)
  steps : left.context.steps = right.context.steps
  depth : left.context.depth = right.context.depth
  maxDepth : left.context.maxDepth = right.context.maxDepth

variable {g h : Graph} {context context' : Context} {left right : Evaluation}
  {model : EStateM.Result EvalError Ledger Noun}

theorem Evaluation.Tracks.alike (hl : Evaluation.Tracks g context model left)
    (hr : Evaluation.Tracks h context' model right) (hdepth : context.depth = context'.depth) :
    left.Alike right := by
  cases hl with
  | ok hd _ =>
    cases hr with
    | ok hd' _ => exact ⟨⟨_, .ok hd, .ok hd'⟩, rfl, hdepth, rfl⟩
  | error _ =>
    cases hr with
    | error _ => exact ⟨⟨_, .error, .error⟩, rfl, hdepth, rfl⟩

/-- Evaluation depends on the nouns of its subject and formula, its limits and its counters. It
depends neither on the graph in which they are stored nor on whether there is a trace. -/
theorem alike_of_same_nouns (wf : g.WellFormed) (wf' : h.WellFormed)
    {subject formula subject' formula' : NodeId} {a f : Noun} (hs : g.Denotes subject a)
    (hf : g.Denotes formula f) (hs' : h.Denotes subject' a) (hf' : h.Denotes formula' f)
    (context : Context) (trace : Option Trace) :
    (context.eval g subject formula).Alike
      ({ context with trace := trace }.eval h subject' formula') := by
  have hl := hs.eval_tracks wf hf context
  have hr := hs'.eval_tracks wf' hf' { context with trace := trace }
  exact hl.alike hr rfl

/-- `[5 [4 0 1] [1 6]]` asks whether the number after its subject is 6. -/
def Noun.isFive : Noun :=
  .triple (.atom 5) (.cell (.atom 4) (.cell (.atom 0) (.atom 1))) (.cell (.atom 1) (.atom 6))

/-- One graph stores the subject before the formula, and the other one after it and behind a
cell that has nothing to do with either. The second evaluation is traced. -/
theorem alike_isFive :
    let subject := (Graph.empty ⟨0⟩).put (.atom 5)
    let formula := subject.2.put .isFive
    let other := (Graph.empty ⟨1⟩).put (.cell (.atom 9) (.atom 1))
    let formula' := other.2.put .isFive
    let subject' := formula'.2.put (.atom 5)
    let context := Context.fresh ⟨100, 10⟩
    (context.eval formula.2 subject.1 formula.1).Alike
      ({ context with trace := some .empty }.eval subject'.2 subject'.1 formula'.1) := by
  intro subject formula other formula' subject' context
  obtain ⟨hg, hs⟩ := Graph.grows_put (Graph.wellFormed_empty ⟨0⟩) (.atom 5)
  obtain ⟨hg', hf⟩ := Graph.grows_put hg.wellFormed .isFive
  obtain ⟨hh, _⟩ := Graph.grows_put (Graph.wellFormed_empty ⟨1⟩) (.cell (.atom 9) (.atom 1))
  obtain ⟨hh', hf'⟩ := Graph.grows_put hh.wellFormed .isFive
  obtain ⟨hh'', hs'⟩ := Graph.grows_put hh'.wellFormed (.atom 5)
  exact alike_of_same_nouns hg'.wellFormed hh''.wellFormed (hs.extend hg'.extend) hf hs'
    (hf'.extend hh''.extend) context (some .empty)

end NockDispatch
