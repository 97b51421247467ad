import NockDispatch.Proofs.Eval.Ledger
import NockDispatch.Proofs.Graph.Edit
import NockDispatch.Proofs.Graph.Following

/-!
# Evaluation of ids follows evaluation of nouns

A run on a graph and a ledger go together when the graph is the one at the start with the
nouns of the ledger put into it, and counters and trace agree. The primitive operations of a
run keep them together.
-/

namespace NockDispatch

/-- A trace that has grown from `start` by the given applications, in order. -/
inductive Traced (g : Graph) (start : Option Trace) : List Application → Option Trace → Prop
  | start : Traced g start [] start
  | record {l t rule s f a b} : Traced g start l (some t) → g.Denotes s a → g.Denotes f b →
      Traced g start (l ++ [⟨rule, a, b⟩]) (some (t.record rule s f))
  | skip {l e} : Traced g start l none → Traced g start (l ++ [e]) none

theorem Traced.extend {g h : Graph} (hgh : g.Extends h) {start : Option Trace}
    {l : List Application} {now : Option Trace} (ht : Traced g start l now) :
    Traced h start l now := by
  induction ht with
  | start => exact .start
  | record _ hs hf ih => exact .record ih (hs.extend hgh) (hf.extend hgh)
  | skip _ ih => exact .skip ih

theorem Traced.unique {g h : Graph} (hgh : g.Extends h) (wf : h.WellFormed) {start : Option Trace}
    {l : List Application} {now now' : Option Trace} (ht : Traced g start l now)
    (ht' : Traced h start l now') : now = now' := by
  induction ht generalizing now' with
  | start =>
    generalize hl : [] = l at ht'
    cases ht' with
    | start => rfl
    | record => simp at hl
    | skip => simp at hl
  | @record l t rule s f a b _ hs hf ih =>
    generalize hl : l ++ [Application.mk rule a b] = l' at ht'
    cases ht' with
    | start => simp at hl
    | record ht' hs' hf' =>
      obtain ⟨rfl, hlast⟩ := List.append_inj' hl rfl
      cases hlast
      cases ih ht'
      rw [(hs.extend hgh).injective wf hs', (hf.extend hgh).injective wf hf']
    | skip ht' =>
      obtain ⟨rfl, _⟩ := List.append_inj' hl rfl
      cases ih ht'
  | @skip l e _ ih =>
    generalize hl : l ++ [e] = l' at ht'
    cases ht' with
    | start => simp at hl
    | record ht' _ _ =>
      obtain ⟨rfl, _⟩ := List.append_inj' hl rfl
      cases ih ht'
    | skip => rfl

/-- A run that has come from `start` while a ledger was filled. -/
structure Tracks (start run : Run) (ledger : Ledger) : Prop where
  graph : run.graph = start.graph.putAll ledger.stored
  wellFormed : run.graph.WellFormed
  steps : run.steps = ledger.steps
  depth : run.depth = start.depth
  maxDepth : run.maxDepth = ledger.maxDepth
  trace : Traced run.graph start.trace ledger.applied run.trace

theorem Tracks.start {run : Run} (wf : run.graph.WellFormed) :
    Tracks run run (.fresh run.steps run.maxDepth) :=
  ⟨rfl, wf, rfl, rfl, rfl, .start⟩

abbrev Run.ties (start : Run) : Ties Run Ledger := ⟨Run.graph, Tracks start, Tracks.wellFormed⟩

variable {start : Run} {g : Graph} {rel' : Graph → γ → δ → Prop}

namespace Follows

theorem read {look : Graph → α} {x : α} {next : α → EvalM γ} {model : LedgerM δ}
    (hl : ∀ h, g.Extends h → h.WellFormed → look h = x)
    (hn : Follows start.ties g rel' (next x) model) :
    Follows start.ties g rel' (EvalM.read look >>= next) model :=
  Follows.look (fun run hg wf => by rw [EvalM.read, hl run.graph hg wf]) hn

theorem store {save : Graph → NodeId × Graph} {a : Noun}
    (hs : ∀ h, g.Extends h → h.WellFormed → save h = h.put a) :
    Follows start.ties g Graph.Denotes (EvalM.store save) (LedgerM.store a) := by
  intro run ledger ht hg
  obtain ⟨hgrow, hd⟩ := Graph.grows_put ht.wellFormed a
  have hrun : EvalM.store save run =
      .ok (run.graph.put a).1 { run with graph := (run.graph.put a).2 } := by
    rw [← hs run.graph hg ht.wellFormed]
    rfl
  rw [hrun]
  have hgraph : (run.graph.put a).2 = start.graph.putAll (ledger.stored ++ [a]) := by
    simp [ht.graph]
  exact .ok ⟨hgraph, hgrow.wellFormed, ht.steps, ht.depth, ht.maxDepth,
    ht.trace.extend hgrow.extend⟩
    (hg.trans hgrow.extend) hd

theorem countStep (limit : Nat) :
    Follows start.ties g (fun _ _ _ => True) (EvalM.countStep limit) (LedgerM.countStep limit) := by
  intro run ledger ht hg
  have hrun : EvalM.countStep limit run =
      if limit ≤ run.steps then .error (.stepLimit limit) run
      else .ok () { run with steps := run.steps + 1 } := rfl
  rw [hrun, LedgerM.countStep, ht.steps]
  by_cases hl : limit ≤ ledger.steps
  · rw [if_pos hl, if_pos hl]
    exact .error ht hg
  · rw [if_neg hl, if_neg hl]
    exact .ok ⟨ht.graph, ht.wellFormed, rfl, ht.depth, ht.maxDepth, ht.trace⟩ hg trivial

theorem nested {limit : Nat} {rel : Graph → α → β → Prop} {body : EvalM α} {model : LedgerM β}
    (hbody : Follows (Run.ties { start with depth := start.depth + 1 }) g rel body model) :
    Follows start.ties g rel (EvalM.nested limit body)
      (LedgerM.enter limit (start.depth + 1) >>= fun _ => model) := by
  intro run ledger ht hg
  have hdown : Tracks { start with depth := start.depth + 1 } (run.deeper EvalM.deepest)
      { ledger with maxDepth := max ledger.maxDepth (start.depth + 1).toNat } :=
    ⟨ht.graph, ht.wellFormed, ht.steps, congrArg (· + 1) ht.depth,
      by rw [← ht.maxDepth, ← ht.depth]; rfl, ht.trace⟩
  have hup : ∀ {run ledger}, Tracks { start with depth := start.depth + 1 } run ledger →
      Tracks start run.shallower ledger := fun ht =>
    ⟨ht.graph, ht.wellFormed, ht.steps,
      (congrArg (· - 1) ht.depth).trans (UInt64.add_sub_cancel _ _), ht.maxDepth, ht.trace⟩
  have hdepth : (run.deeper EvalM.deepest).depth = start.depth + 1 := hdown.depth
  change Agree _ _ _ (Run.comeUp _) (EStateM.bind _ _ _)
  rw [EStateM.bind, LedgerM.enter, hdepth]
  by_cases hdeep : limit < (start.depth + 1).toNat
  · simp only [if_pos hdeep]
    exact .error (hup hdown) hg
  · simp only [if_neg hdeep]
    have hend := hbody _ _ hdown hg
    generalize body (run.deeper EvalM.deepest) = left at hend ⊢
    generalize model _ = right at hend ⊢
    cases hend with
    | ok ht' hg' hr => exact .ok (hup ht') hg' hr
    | error ht' hg' => exact .error (hup ht') hg'

theorem record (rule : Rule) {s f : NodeId} {a b : Noun} (hs : g.Denotes s a)
    (hf : g.Denotes f b) :
    Follows start.ties g (fun _ _ _ => True) (EvalM.record rule s f) (LedgerM.record rule a b) := by
  intro run ledger ht hg
  obtain ⟨graph, steps, depth, maxDepth, trace⟩ := run
  cases trace with
  | none =>
    exact .ok ⟨ht.graph, ht.wellFormed, ht.steps, ht.depth, ht.maxDepth, .skip ht.trace⟩ hg trivial
  | some t =>
    exact .ok ⟨ht.graph, ht.wellFormed, ht.steps, ht.depth, ht.maxDepth,
      .record ht.trace (hs.extend hg) (hf.extend hg)⟩ hg trivial

end Follows
end NockDispatch
