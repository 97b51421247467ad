import Mathlib.Data.List.Induction
import NockDispatch.Proofs.Eval.Ending

/-!
# Thresholds of the limits

An evaluation in a fresh context that ends for another reason than a limit has taken some number
of steps and has reached some depth. Limits that allow as much leave everything as it is but
themselves. All others stop it: the error names one of them, and what was stored and recorded
until then is the first part of what is stored and recorded in the end.
-/

namespace NockDispatch

/-! ## Parts of a trace -/

def Trace.eventsOf : Option Trace → List Event
  | none => []
  | some trace => trace.events.toList

variable {g : Graph} {start now : Option Trace} {l : List Application}

theorem Traced.exists_before {e : Application} (ht : Traced g start (l ++ [e]) now) :
    ∃ before, Traced g start l before ∧ Trace.eventsOf before <+: Trace.eventsOf now := by
  generalize hwhole : l ++ [e] = whole at ht
  cases ht with
  | start => simp at hwhole
  | @record l' t rule s f _ _ ht _ _ =>
    obtain ⟨rfl, _⟩ := List.append_inj' hwhole rfl
    exact ⟨some t, ht, by simp [Trace.eventsOf, Trace.record]⟩
  | skip ht =>
    obtain ⟨rfl, _⟩ := List.append_inj' hwhole rfl
    exact ⟨none, ht, List.prefix_rfl⟩

theorem Traced.exists_prefix {more : List Application} (ht : Traced g start (l ++ more) now) :
    ∃ before, Traced g start l before ∧ Trace.eventsOf before <+: Trace.eventsOf now := by
  induction more using List.reverseRecOn generalizing now with
  | nil => exact ⟨now, by rwa [List.append_nil] at ht, List.prefix_rfl⟩
  | append_singleton more e ih =>
    rw [← List.append_assoc] at ht
    obtain ⟨later, ht, hlater⟩ := ht.exists_before
    obtain ⟨before, ht, hbefore⟩ := ih ht
    exact ⟨before, ht, hbefore.trans hlater⟩

/-! ## What an evaluation leaves -/

namespace Evaluation

/-- An evaluation under other limits that differs in nothing else. -/
def under (evaluation : Evaluation) (limits : Limits) : Evaluation :=
  { evaluation with context := { evaluation.context with limits := limits } }

variable {context : Context} {limits : Limits} {model : EStateM.Result EvalError Ledger Noun}
  {o : Except EvalError Noun} {l l' : Ledger} {left left' : Evaluation}

theorem Tracks.under_eq (wf : g.WellFormed) (ht : Tracks g context model left)
    (ht' : Tracks g { context with limits := limits } model left') : left' = left.under limits := by
  have wf' := fun l => (Graph.grows_putAll wf l).wellFormed
  cases ht with
  | ok hd ht =>
    cases ht' with
    | ok hd' ht' => rw [hd'.injective (wf' _) hd, ht.unique (.refl _) (wf' _) ht', under]
  | error ht =>
    cases ht' with
    | error ht' => rw [ht.unique (.refl _) (wf' _) ht', under]

theorem Tracks.outcome_eq {e : EvalError} (ht : Tracks g context (finish (.error e) l) left) :
    left.outcome = .error e := by
  cases ht with
  | error => rfl

theorem Tracks.fair_iff (ht : Tracks g context (finish o l) left) : Fair left.outcome ↔ Fair o := by
  cases o with
  | ok =>
    cases ht with
    | ok => exact iff_of_true (fair_ok _) (fair_ok _)
  | error e =>
    rw [ht.outcome_eq]
    exact ⟨fun hf => fair_error (hf e rfl), fun hf => fair_error (hf e rfl)⟩

theorem Tracks.ledger (ht : Tracks g context (finish o l) left) :
    left.graph = g.putAll l.stored ∧ left.context.steps = l.steps ∧
      left.context.maxDepth = l.maxDepth ∧ ∃ trace,
        Traced (g.putAll l.stored) context.trace l.applied trace ∧
        Trace.eventsOf left.context.trace = Trace.eventsOf trace := by
  cases o with
  | error e =>
    cases ht with
    | error ht => exact ⟨rfl, rfl, rfl, _, ht, rfl⟩
  | ok x =>
    cases ht with
    | @ok _ _ _ trace _ ht =>
      refine ⟨rfl, rfl, rfl, trace, ht, ?_⟩
      dsimp only
      split
      · cases trace <;> rfl
      · rfl

theorem Tracks.prefix_of_ledger (wf : g.WellFormed) {o' : Except EvalError Noun}
    (ht : Tracks g context (finish o l) left)
    (ht' : Tracks g { context with limits := limits } (finish o' l') left')
    (hs : l'.stored <+: l.stored) (ha : l'.applied <+: l.applied) :
    left'.graph.nodes.toList <+: left.graph.nodes.toList ∧
      Trace.eventsOf left'.context.trace <+: Trace.eventsOf left.context.trace := by
  obtain ⟨hgraph, _, _, trace, htrace, hevents⟩ := ht.ledger
  obtain ⟨hgraph', _, _, trace', htrace', hevents'⟩ := ht'.ledger
  obtain ⟨more, hs⟩ := hs
  obtain ⟨later, ha⟩ := ha
  have hgrow := Graph.grows_putAll (Graph.grows_putAll wf l'.stored).wellFormed more
  rw [← Graph.putAll_append, hs] at hgrow
  rw [← ha] at htrace
  obtain ⟨before, hbefore, hprefix⟩ := htrace.exists_prefix
  rw [hgraph, hgraph', hevents, hevents', htrace'.unique hgrow.extend hgrow.wellFormed hbefore]
  exact ⟨hgrow.extend.appends, hprefix⟩

end Evaluation

/-! ## Thresholds -/

namespace Graph

def evalFresh (g : Graph) (trace : Option Trace) (subject formula : NodeId) (limits : Limits) :
    Evaluation :=
  { Context.fresh limits with trace := trace }.eval g subject formula

variable {subject formula : NodeId} {a f : Noun} {trace : Option Trace} {limits : Limits}

theorem Denotes.tracks_fresh (wf : g.WellFormed) (hs : g.Denotes subject a)
    (hf : g.Denotes formula f) (trace : Option Trace) (limits : Limits) :
    Evaluation.Tracks g { Context.fresh limits with trace := trace }
      (Noun.evaluateIn a f limits.bounds (.fresh 0 0))
      (g.evalFresh trace subject formula limits) :=
  hs.eval_tracks wf hf _

/-- An end that is no limit has a bill, which its limits cover. -/
theorem Denotes.exists_bill (wf : g.WellFormed) (hs : g.Denotes subject a)
    (hf : g.Denotes formula f) (hfair : Fair (g.evalFresh trace subject formula limits).outcome) :
    ∃ o b, Costs (Noun.evaluateIn a f) o b ∧ limits.bounds.Cover (.fresh 0 0) b := by
  have ht := hs.tracks_fresh wf hf trace limits
  obtain ⟨l, hl⟩ := exists_finish (Noun.evaluateIn a f limits.bounds (.fresh 0 0))
  generalize outcome (Noun.evaluateIn a f limits.bounds (.fresh 0 0)) = o at hl
  rw [hl] at ht
  have hfair' := ht.fair_iff.mp hfair
  obtain ⟨b, hcost⟩ := (Noun.accounted_evaluate a f).endsAs limits.hold_bounds hfair' hl
  refine ⟨o, b, hcost, ?_⟩
  by_contra hb
  have hcut := hcost.cut limits.hold_bounds hb
  rw [hl] at hcut
  generalize hleft : finish o l = left at hcut
  cases hcut with
  | intro he => exact hfair'.not_limit he.isLimit hleft

/-- Within limits that cover its bill, an evaluation does what the bill lists. -/
theorem Denotes.tracks_covered (wf : g.WellFormed) (hs : g.Denotes subject a)
    (hf : g.Denotes formula f) {o : Except EvalError Noun} {b : Bill}
    (hcost : Costs (Noun.evaluateIn a f) o b) (trace : Option Trace)
    (hb : limits.bounds.Cover (.fresh 0 0) b) :
    Evaluation.Tracks g { Context.fresh limits with trace := trace }
      (finish o ((Ledger.fresh 0 0).charge 0 b)) (g.evalFresh trace subject formula limits) := by
  have ht := hs.tracks_fresh wf hf trace limits
  rwa [hcost.covered limits.hold_bounds hb] at ht

/-- Limits cut sharply. An evaluation that ends for another reason than a limit is the same under
all limits that allow the steps and the depth that it has taken. Under all others it names one
of them, and leaves a first part of the nodes and of the events. -/
theorem evalFresh_threshold (wf : g.WellFormed) (hs : g.Stored subject) (hf : g.Stored formula)
    (trace : Option Trace) (limits : Limits)
    (hfair : Fair (g.evalFresh trace subject formula limits).outcome) (limits' : Limits) :
    let run := g.evalFresh trace subject formula limits
    let run' := g.evalFresh trace subject formula limits'
    (run.context.steps ≤ limits'.steps ∧ run.context.maxDepth ≤ limits'.depth →
      run' = run.under limits') ∧
    (¬ (run.context.steps ≤ limits'.steps ∧ run.context.maxDepth ≤ limits'.depth) →
      (run'.outcome = .error (.stepLimit limits'.steps) ∨
        run'.outcome = .error (.depthLimit limits'.depth)) ∧
      run'.graph.nodes.toList <+: run.graph.nodes.toList ∧
      Trace.eventsOf run'.context.trace <+: Trace.eventsOf run.context.trace) := by
  intro run run'
  obtain ⟨a, hs⟩ := exists_denotes wf hs
  obtain ⟨f, hf⟩ := exists_denotes wf hf
  obtain ⟨o, b, hcost, hb⟩ := hs.exists_bill wf hf hfair
  have ht := hs.tracks_covered wf hf hcost trace hb
  obtain ⟨-, hsteps, hdepth, -⟩ := ht.ledger
  have hcover : run.context.steps ≤ limits'.steps ∧ run.context.maxDepth ≤ limits'.depth ↔
      limits'.bounds.Cover (.fresh 0 0) b := by
    rw [Limits.cover_bounds, hsteps, hdepth]
    simp [Ledger.charge, Ledger.fresh]
  rw [hcover]
  refine ⟨fun hb' => ?_, fun hb' => ?_⟩
  · exact ht.under_eq wf (hs.tracks_covered wf hf hcost trace hb')
  · have ht' := hs.tracks_fresh wf hf trace limits'
    have hcut := hcost.cut limits'.hold_bounds hb'
    generalize Noun.evaluateIn a f limits'.bounds (.fresh 0 0) = model at ht' hcut
    cases hcut with
    | @intro e l stored applied he hstored hs hrules ha =>
      have ht' : Evaluation.Tracks g _ (finish (.error e) l) run' := ht'
      exact ⟨he.imp (ht'.outcome_eq.trans <| congrArg _ ·) (ht'.outcome_eq.trans <| congrArg _ ·),
        ht.prefix_of_ledger wf ht' (hstored ▸ hs) (hrules ▸ ha)⟩

/-- `[4 0 1]` takes two steps and goes down two levels: these limits suffice, and one step does
not. -/
theorem evalFresh_threshold_increment :
    let subject := (empty ⟨0⟩).put (.atom 5)
    let formula := subject.2.put (.cell (.atom 4) (.cell (.atom 0) (.atom 1)))
    let run := formula.2.evalFresh (some .empty) subject.1 formula.1
    Fair (run ⟨9, 9⟩).outcome ∧ run ⟨2, 2⟩ = (run ⟨9, 9⟩).under ⟨2, 2⟩ ∧
      ((run ⟨1, 2⟩).outcome = .error (.stepLimit 1) ∨
        (run ⟨1, 2⟩).outcome = .error (.depthLimit 2)) := by
  intro subject formula run
  obtain ⟨hg, hs⟩ := grows_put (wellFormed_empty ⟨0⟩) (.atom 5)
  obtain ⟨hg', hf⟩ := grows_put hg.wellFormed (.cell (.atom 4) (.cell (.atom 0) (.atom 1)))
  have ht := (hs.extend hg'.extend).tracks_fresh hg'.wellFormed hf (some .empty) ⟨9, 9⟩
  have hmodel : Noun.evaluateIn (.atom 5) (.cell (.atom 4) (.cell (.atom 0) (.atom 1)))
      (Limits.bounds ⟨9, 9⟩) (.fresh 0 0) = finish (.ok (.atom 6)) ⟨[.atom 6], 2, 2,
        [⟨.opcode .increment, .atom 5, .cell (.atom 4) (.cell (.atom 0) (.atom 1))⟩,
          ⟨.opcode .slot, .atom 5, .cell (.atom 0) (.atom 1)⟩]⟩ := rfl
  rw [hmodel] at ht
  have hfair : Fair (run ⟨9, 9⟩).outcome := ht.fair_iff.mpr (fair_ok _)
  obtain ⟨-, hsteps, hdepth, -⟩ := ht.ledger
  have hcut := evalFresh_threshold hg'.wellFormed (hs.extend hg'.extend).stored hf.stored
    (some .empty) ⟨9, 9⟩ hfair
  exact ⟨hfair, (hcut ⟨2, 2⟩).1 ⟨Nat.le_of_eq hsteps, Nat.le_of_eq hdepth⟩,
    ((hcut ⟨1, 2⟩).2 fun hfits => by simp [hsteps] at hfits).1⟩

end Graph
end NockDispatch
