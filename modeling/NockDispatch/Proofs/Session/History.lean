import NockDispatch.Proofs.Session.Inquiry
import NockDispatch.Proofs.Session.Task
import NockDispatch.Workspace

/-!
# Histories

A session holds the graphs of a workspace and one memo, which is shared by any number of
dispatchers. Its history is a list of operations: graphs are created and cloned, tasks are
done on them, and dispatchers are asked. An operation with an id that its graph did not give
out, or with nouns of a nest check that were not taken from it, cannot be done, and a history with
such an operation has no transcript.
-/

namespace NockDispatch

open Nest

/-- Something to do on one graph, by itself or by one of the dispatchers. -/
inductive Errand where
  | work (task : Task)
  | ask (dispatcher : Nat) (inquiry : Inquiry)

namespace Errand

def ids : Errand → List NodeId
  | work task => task.ids
  | ask _ inquiry => inquiry.ids

def taken : Errand → List Args
  | work task => task.taken
  | ask _ inquiry => inquiry.taken

def Fits (g : Graph) (errand : Errand) : Prop := Given g errand.ids errand.taken

instance (g : Graph) (errand : Errand) : Decidable (errand.Fits g) :=
  inferInstanceAs (Decidable (Given g errand.ids errand.taken))

def run (dispatchers : Nat → Settings) (memo : Memo) (g : Graph) :
    Errand → (Reply × Memo) × Graph
  | work task => (((task.run g).1, memo), (task.run g).2)
  | ask dispatcher inquiry =>
    let left := (inquiry.answer (dispatchers dispatcher)).perform memo g
    ((.checked left.1.1, left.1.2), left.2)

theorem grows_run {g : Graph} (wf : g.WellFormed) {errand : Errand} (hf : errand.Fits g)
    (dispatchers : Nat → Settings) (memo : Memo) :
    g.Grows (errand.run dispatchers memo g).2 := by
  cases errand with
  | work task => exact task.grows_run wf hf.stored
  | ask dispatcher inquiry => exact inquiry.grows_answer wf hf.stored

end Errand

/-- Graphs, and the memo of all dispatchers. -/
structure Session where
  workspace : Workspace
  memo : Memo

inductive Operation where
  | create
  | clone (source : GraphId)
  | errand (graph : GraphId) (errand : Errand)

namespace Session

def step (dispatchers : Nat → Settings) (s : Session) : Operation → Option (Reply × Session)
  | .create => some (.graph s.workspace.create.1, ⟨s.workspace.create.2, s.memo⟩)
  | .clone source => do
    let g ← s.workspace.graph? source
    some (.graph (s.workspace.clone g).1, ⟨(s.workspace.clone g).2, s.memo⟩)
  | .errand id errand => do
    let g ← s.workspace.graph? id
    if errand.Fits g then
      let ((reply, memo), workspace) ←
        s.workspace.run id fun g => errand.run dispatchers s.memo g
      some (reply, ⟨workspace, memo⟩)
    else none

/-- What the operations of a history answer, each with the graphs that it leaves. -/
def transcript (dispatchers : Nat → Settings) (s : Session) :
    List Operation → Option (List (Reply × Workspace))
  | [] => some []
  | operation :: rest => do
    let (reply, s) ← s.step dispatchers operation
    let later ← s.transcript dispatchers rest
    some ((reply, s.workspace) :: later)

end Session

/-! ## Graphs of a workspace -/

namespace Workspace

/-- Every graph is well-formed and carries the name it is found by. -/
structure Sound (w : Workspace) : Prop where
  named : w.Named
  wellFormed : ∀ ⦃id g⦄, w.graph? id = some g → g.WellFormed

def put (w : Workspace) (id : GraphId) (g : Graph) : Workspace :=
  ⟨w.graphs.setIfInBounds id.index g⟩

variable {w : Workspace} {id : GraphId} {g : Graph}

theorem run_eq (hg : w.graph? id = some g) (act : Graph → α × Graph) :
    w.run id act = some ((act g).1, w.put id (act g).2) := by
  obtain ⟨hi, hget⟩ := Array.getElem?_eq_some_iff.mp hg
  rw [run, dif_pos hi]
  simp only [hget, put, Array.setIfInBounds, Array.size_set, hi, dif_pos, Array.set_set]

theorem graph?_put (hg : w.graph? id = some g) (h : Graph) (other : GraphId) :
    (w.put id h).graph? other = if other = id then some h else w.graph? other := by
  obtain ⟨hi, _⟩ := Array.getElem?_eq_some_iff.mp hg
  have hindex : id.index = other.index ↔ other = id := by
    cases id
    cases other
    simp [eq_comm]
  unfold put graph?
  rw [Array.getElem?_setIfInBounds]
  by_cases heq : other = id
  · rw [if_pos (hindex.mpr heq), if_pos hi, if_pos heq]
  · rw [if_neg (mt hindex.mp heq), if_neg heq]

theorem Sound.put (hw : w.Sound) (hg : w.graph? id = some g) {h : Graph} (hgh : g.Grows h) :
    (w.put id h).Sound := by
  constructor
  · intro other k hk
    rw [graph?_put hg] at hk
    split at hk
    · next heq =>
      cases hk
      rw [hgh.id_eq, heq]
      exact hw.named hg
    · exact hw.named hk
  · intro other k hk
    rw [graph?_put hg] at hk
    split at hk
    · cases hk
      exact hgh.wellFormed
    · exact hw.wellFormed hk

theorem graph?_push {k : Graph} (hk : w.graph? id = some k) (h : Graph) :
    (Workspace.mk (w.graphs.push h)).graph? id = some k := by
  obtain ⟨hi, hget⟩ := Array.getElem?_eq_some_iff.mp hk
  simp only [graph?, Array.getElem?_push_lt hi, hget]

theorem wellFormed_push (hw : w.Sound) {h : Graph} (wf : h.WellFormed) :
    ∀ ⦃id g⦄, (Workspace.mk (w.graphs.push h)).graph? id = some g → g.WellFormed := by
  intro id g hg
  simp only [graph?, Array.getElem?_push] at hg
  split at hg
  · cases hg
    exact wf
  · exact hw.wellFormed hg

theorem Sound.create (hw : w.Sound) : w.create.2.Sound :=
  ⟨hw.named.create, wellFormed_push hw (Graph.wellFormed_empty _)⟩

/-- The name of a graph plays no part in its being well-formed. -/
theorem Sound.clone (hw : w.Sound) (wf : g.WellFormed) : (w.clone g).2.Sound :=
  ⟨hw.named.clone g, wellFormed_push hw ⟨wf.descends, wf.indexed⟩⟩

end Workspace

theorem sound_empty : Workspace.empty.Sound :=
  ⟨Workspace.named_empty, fun id g hg => by simp [Workspace.empty, Workspace.graph?] at hg⟩

end NockDispatch
