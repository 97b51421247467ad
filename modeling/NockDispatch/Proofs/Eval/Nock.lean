import NockDispatch.Proofs.Eval.Adequacy
import NockDispatch.Proofs.Eval.Rules

/-!
# Nock on graphs

What `Graph.nock` does to a graph is fixed by the nouns of the subject and the formula: it
stores the nouns of a ledger and gives the id of a product or an error. So evaluation gives
the products that the published rules allow, and doing it once more stores nothing.
-/

namespace NockDispatch

namespace Noun

def nock (limits : Limits) (a f : Noun) : EStateM.Result EvalError Ledger Noun :=
  evaluate limits limits.steps 0 a f (.fresh 0 0)

theorem nock_sound {limits : Limits} {a f p : Noun} {l : Ledger}
    (h : nock limits a f = .ok p l) : Reduces a f p := by
  obtain ⟨_, _, _, hp⟩ := bind_ok_iff.mp h
  obtain ⟨_, _, hd⟩ := reduce_sound limits limits.steps 1 a f hp
  exact hd.reduces

/-- A product that is derived is given, unless a limit is reached, and some limits suffice. -/
theorem Reduces.nock {a f p : Noun} (h : Reduces a f p) :
    ∃ least : Limits, ∀ limits,
      (∃ l, Noun.nock limits a f = .ok p l) ∨
      (∃ e l, Noun.nock limits a f = .error e l ∧ e.IsLimit ∧
        (limits.steps < least.steps ∨ limits.depth < least.depth)) := by
  obtain ⟨rules, hd⟩ := h.derives
  obtain ⟨d, haff⟩ := hd.affords
  refine ⟨⟨rules.length, d + 1⟩, fun limits => ?_⟩
  have hrun := haff.nested (Nat.lt_succ_self d) limits limits.steps 0 (.fresh 0 0) (by simp)
  rcases hrun with ⟨l, hok, _⟩ | ⟨e, l, herr, he, hlim⟩
  · exact .inl ⟨l, hok⟩
  · refine .inr ⟨e, l, herr, he, ?_⟩
    simpa [Ledger.fresh] using hlim

theorem Reduces.unique {a f p q : Noun} (hp : Reduces a f p) (hq : Reduces a f q) : p = q := by
  obtain ⟨x, hx⟩ := hp.nock
  obtain ⟨y, hy⟩ := hq.nock
  let limits : Limits := ⟨max x.steps y.steps, max x.depth y.depth⟩
  have hsteps : x.steps ≤ limits.steps ∧ y.steps ≤ limits.steps :=
    ⟨Nat.le_max_left _ _, Nat.le_max_right _ _⟩
  have hdepth : x.depth ≤ limits.depth ∧ y.depth ≤ limits.depth :=
    ⟨Nat.le_max_left _ _, Nat.le_max_right _ _⟩
  rcases hx limits with ⟨l, hl⟩ | ⟨_, _, _, _, hlim⟩
  · rcases hy limits with ⟨m, hm⟩ | ⟨_, _, _, _, hlim⟩
    · rw [hl] at hm
      cases hm
      rfl
    · omega
  · omega

end Noun

/-- An evaluation on a graph that ended as an evaluation of nouns did: the nouns of the ledger are
stored, the counters are those of the ledger, and the trace has grown by its applications. -/
inductive Evaluation.Tracks (g : Graph) (context : Context) :
    EStateM.Result EvalError Ledger Noun → Evaluation → Prop
  | ok {id a l trace} : (g.putAll l.stored).Denotes id a →
      Traced (g.putAll l.stored) context.trace l.applied trace →
      Tracks g context (.ok a l) ⟨.ok id, g.putAll l.stored,
        ⟨context.limits, l.steps, context.depth, l.maxDepth,
          if context.depth = 0 then trace.map ({ · with result := some id }) else trace⟩⟩
  | error {e l trace} : Traced (g.putAll l.stored) context.trace l.applied trace →
      Tracks g context (.error e l) ⟨.error e, g.putAll l.stored,
        ⟨context.limits, l.steps, context.depth, l.maxDepth, trace⟩⟩

namespace Graph

variable {g h : Graph} {subject formula : NodeId} {a f : Noun}

/-- Evaluation in any context keeps step with the evaluation of nouns. -/
theorem Denotes.eval_tracks (wf : g.WellFormed) (hs : g.Denotes subject a)
    (hf : g.Denotes formula f) (context : Context) :
    Evaluation.Tracks g context
      (Noun.evaluate context.limits (context.limits.steps - context.steps) context.depth a f
        (.fresh context.steps context.maxDepth))
      (context.eval g subject formula) := by
  obtain ⟨limits, steps, depth, maxDepth, trace⟩ := context
  let start : Run := ⟨g, steps, depth, maxDepth, trace⟩
  have hstart : Tracks start start (.fresh steps maxDepth) := .start wf
  have hrun := follows_evaluate start limits (limits.steps - steps) hs hf _ _ hstart (.refl g)
  unfold Context.eval
  dsimp only [start] at hrun ⊢
  generalize evaluate limits (limits.steps - steps) subject formula
    ⟨g, steps, depth, maxDepth, trace⟩ = result at hrun ⊢
  generalize Noun.evaluate limits (limits.steps - steps) depth a f (.fresh steps maxDepth) =
    result' at hrun ⊢
  cases hrun with
  | ok ht _ hd =>
    obtain ⟨hgraph, _, hsteps, hdepth, hmax, htrace⟩ := ht
    simp only [hgraph, hsteps, hdepth, hmax] at hd htrace ⊢
    exact .ok hd htrace
  | error ht _ =>
    obtain ⟨hgraph, _, hsteps, hdepth, hmax, htrace⟩ := ht
    simp only [hgraph, hsteps, hdepth, hmax] at htrace ⊢
    exact .error htrace

/-- What an evaluation gives and stores is fixed by nouns and counters. -/
theorem Denotes.eval (wf : g.WellFormed) (hs : g.Denotes subject a) (hf : g.Denotes formula f)
    (context : Context) :
    g.Leaves Ledger.stored
      (Noun.evaluate context.limits (context.limits.steps - context.steps) context.depth a f
        (.fresh context.steps context.maxDepth))
      ((context.eval g subject formula).outcome, (context.eval g subject formula).graph) := by
  have hrun := hs.eval_tracks wf hf context
  generalize context.eval g subject formula = evaluation at hrun ⊢
  generalize Noun.evaluate context.limits (context.limits.steps - context.steps) context.depth a f
    (.fresh context.steps context.maxDepth) = model at hrun ⊢
  cases hrun with
  | ok hd _ => exact .ok hd
  | error _ => exact .error

/-- Evaluating again from the same context gives the same product or error, leaves the same
context and stores nothing, however the graph has grown since. -/
theorem eval_again (wf : g.WellFormed) (wf' : h.WellFormed) (hs : g.Stored subject)
    (hf : g.Stored formula) {context : Context}
    (hext : (context.eval g subject formula).graph.Extends h) :
    context.eval h subject formula = { context.eval g subject formula with graph := h } := by
  obtain ⟨a, hs⟩ := exists_denotes wf hs
  obtain ⟨f, hf⟩ := exists_denotes wf hf
  have hgrow := ((hs.eval wf hf context).grows wf).extend.trans hext
  have hrun := hs.eval_tracks wf hf context
  have hrun' := (hs.extend hgrow).eval_tracks wf' (hf.extend hgrow) context
  generalize context.eval g subject formula = left at *
  generalize context.eval h subject formula = left' at *
  generalize Noun.evaluate context.limits (context.limits.steps - context.steps) context.depth a f
    (.fresh context.steps context.maxDepth) = model at *
  cases hrun with
  | ok hd ht =>
    cases hrun' with
    | ok hd' ht' =>
      have hsame := putAll_again wf wf' hext
      rw [hsame] at hd' ht' ⊢
      rw [hd'.injective wf' (hd.extend hext), ht.unique hext wf' ht']
  | error ht =>
    cases hrun' with
    | error ht' =>
      have hsame := putAll_again wf wf' hext
      rw [hsame] at ht' ⊢
      rw [ht.unique hext wf' ht']

theorem Denotes.nock (wf : g.WellFormed) (hs : g.Denotes subject a) (hf : g.Denotes formula f)
    (limits : Limits) : g.Leaves Ledger.stored (Noun.nock limits a f) (g.nock limits subject formula) :=
  hs.eval wf hf (.fresh limits)

/-- `nock` is Nock. Its products are those of the published rules, a product of the rules is
given under all limits from some limits on, and where it fails for another reason than a limit
the rules have no product. -/
theorem nock_refines_reduces (wf : g.WellFormed) (hs : g.Stored subject) (hf : g.Stored formula) :
    ∃ a f, g.Denotes subject a ∧ g.Denotes formula f ∧
      (∀ limits p, (g.nock limits subject formula).1 = .ok p →
        ∃ v, (g.nock limits subject formula).2.Denotes p v ∧ ∀ w, Noun.Reduces a f w ↔ w = v) ∧
      (∀ v, Noun.Reduces a f v → ∃ least : Limits, ∀ limits : Limits,
        least.steps ≤ limits.steps → least.depth ≤ limits.depth →
          ∃ p, (g.nock limits subject formula).1 = .ok p ∧
            (g.nock limits subject formula).2.Denotes p v) ∧
      (∀ limits e, (g.nock limits subject formula).1 = .error e → ¬ e.IsLimit →
        ∀ v, ¬ Noun.Reduces a f v) := by
  obtain ⟨a, hs⟩ := exists_denotes wf hs
  obtain ⟨f, hf⟩ := exists_denotes wf hf
  have hrun := fun limits => hs.nock wf hf limits
  refine ⟨a, f, hs, hf, ?_, ?_, ?_⟩
  · intro limits p hp
    specialize hrun limits
    generalize g.nock limits subject formula = left at hp hrun ⊢
    generalize hmodel : Noun.nock limits a f = model at hrun
    cases hrun with
    | ok hd =>
      cases hp
      have hreduces := Noun.nock_sound hmodel
      exact ⟨_, hd, fun w => ⟨fun hw => hw.unique hreduces, fun hw => hw ▸ hreduces⟩⟩
    | error => cases hp
  · intro v hv
    obtain ⟨least, hleast⟩ := hv.nock
    refine ⟨least, fun limits hsteps hdepth => ?_⟩
    specialize hrun limits
    rcases hleast limits with ⟨l, hok⟩ | ⟨_, _, _, _, hlim⟩
    · rw [hok] at hrun
      generalize g.nock limits subject formula = left at hrun ⊢
      cases hrun with
      | ok hd => exact ⟨_, rfl, hd⟩
    · omega
  · intro limits e herr hlimit v hv
    obtain ⟨least, hleast⟩ := hv.nock
    specialize hrun limits
    generalize g.nock limits subject formula = left at herr hrun
    rcases hleast limits with ⟨l, hok⟩ | ⟨e', l, hmodel, he', _⟩
    · rw [hok] at hrun
      cases hrun
      cases herr
    · rw [hmodel] at hrun
      cases hrun
      cases herr
      exact hlimit he'

/-- `[4 0 1]` adds one to its subject. -/
theorem nock_refines_increment :
    let subject := (empty ⟨0⟩).put (.atom 5)
    let formula := subject.2.put (.cell (.atom 4) (.cell (.atom 0) (.atom 1)))
    ∃ least : Limits, ∀ limits : Limits,
      least.steps ≤ limits.steps → least.depth ≤ limits.depth →
        ∃ p, (formula.2.nock limits subject.1 formula.1).1 = .ok p ∧
          (formula.2.nock limits subject.1 formula.1).2.Denotes p (.atom 6) := by
  intro subject formula
  obtain ⟨hg, hs⟩ := grows_put (wellFormed_empty ⟨0⟩) (.atom 5)
  obtain ⟨hg', hf⟩ := grows_put hg.wellFormed (.cell (.atom 4) (.cell (.atom 0) (.atom 1)))
  have hs' := hs.extend hg'.extend
  obtain ⟨a, f, ha, hf', _, hcomplete, _⟩ :=
    nock_refines_reduces hg'.wellFormed hs'.stored hf.stored
  obtain rfl := ha.functional hs'
  obtain rfl := hf'.functional hf
  exact hcomplete _ (.increment (.slot .whole))

end Graph
end NockDispatch
