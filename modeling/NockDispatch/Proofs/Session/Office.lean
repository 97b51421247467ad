import Mathlib.Logic.Function.Basic
import NockDispatch.Proofs.Session.Keeping

/-!
# Everything that is ever stored

An office holds the graphs of a workspace and any number of memos, and each dispatcher uses one of
the memos. Whatever is done in an office, from the empty one on, no graph stores a node twice, and
so its ids stand for nouns one to one. An id that is given out is one of the graph, and it keeps
its noun for ever, because a graph only gets new nodes behind those that it has.
-/

namespace NockDispatch

open Nest

/-- A dispatcher uses the memo of some number, by itself or together with others. -/
structure Dispatcher where
  settings : Settings
  memo : Nat

structure Office where
  workspace : Workspace
  memos : Nat → Memo

/-- The number of the memo that is at hand during an operation. It plays no part unless a
dispatcher is asked. -/
def Operation.memo (dispatchers : Nat → Dispatcher) : Operation → Nat
  | errand _ (.ask d _) => (dispatchers d).memo
  | _ => 0

namespace Office

def empty : Office := ⟨.empty, fun _ => .empty⟩

def step (dispatchers : Nat → Dispatcher) (o : Office) (operation : Operation) :
    Option (Reply × Office) := do
  let memo := operation.memo dispatchers
  let session : Session := ⟨o.workspace, o.memos memo⟩
  let (reply, left) ← session.step (fun d => (dispatchers d).settings) operation
  some (reply, ⟨left.workspace, Function.update o.memos memo left.memo⟩)

def after (dispatchers : Nat → Dispatcher) (o : Office) : List Operation → Option Office
  | [] => some o
  | operation :: rest => do
    let (_, o) ← o.step dispatchers operation
    o.after dispatchers rest

end Office

/-! ## One operation -/

/-- What a memo keeps is stored. -/
def Lodged : Workspace → Memo → Prop := Kept fun g _ p => g.Stored p

theorem lasting_stored : Lasting fun g _ p => g.Stored p := fun _ _ _ _ hgh hs => hgh.stored hs

theorem earned_stored (settings : Settings) : Earned (fun g _ p => g.Stored p) settings := by
  intro g args p wf hs hp
  obtain ⟨a, ha⟩ := denotes_compute wf hs hp
  exact ha.stored

variable {w : Workspace} {memo : Memo} {id : GraphId} {g : Graph} {settings : Nat → Settings}

theorem Errand.stored_run (hl : Lodged w memo) (hw : w.Sound) (hg : w.graph? id = some g)
    {errand : Errand} (hf : errand.Fits g) :
    ∀ p ∈ (errand.run settings memo g).1.1.ids, (errand.run settings memo g).2.Stored p := by
  have wf := hw.wellFormed hg
  cases errand with
  | work task => exact task.stored_run wf hf.stored
  | ask d inquiry =>
    intro p hp
    exact inquiry.stored_answer wf hf.stored (fun _ _ hq => hl.get? hw hg hq) (mem_toList_toOption.mp hp)

namespace Session

structure Sound (s : Session) : Prop where
  workspace : s.workspace.Sound
  memo : Lodged s.workspace s.memo

variable {s s' : Session} {reply : Reply}

/-- An errand can be done as soon as its ids are ids of the graph. -/
theorem step_errand (hg : s.workspace.graph? id = some g) {errand : Errand} (hf : errand.Fits g) :
    s.step settings (.errand id errand) =
      some ((errand.run settings s.memo g).1.1,
        ⟨s.workspace.put id (errand.run settings s.memo g).2,
          (errand.run settings s.memo g).1.2⟩) := by
  simp [step, hg, hf, Workspace.run_eq hg]

theorem grows_step (hw : s.workspace.Sound) {operation : Operation}
    (h : s.step settings operation = some (reply, s')) :
    s'.workspace.Sound ∧ s.workspace.Grows s'.workspace := by
  cases operation with
  | create =>
    cases h
    exact ⟨hw.create, hw.grows_push _⟩
  | clone source =>
    obtain ⟨g, hg, h⟩ := Option.bind_eq_some_iff.mp h
    cases h
    exact ⟨hw.clone (hw.wellFormed hg), hw.grows_push _⟩
  | errand id errand =>
    obtain ⟨g, hg, hdone⟩ := Option.bind_eq_some_iff.mp h
    by_cases hf : errand.Fits g
    · rw [step_errand hg hf] at h
      cases h
      have hgrow := errand.grows_run (hw.wellFormed hg) hf settings s.memo
      exact ⟨hw.put hg hgrow, hw.grows_put hg hgrow⟩
    · rw [if_neg hf] at hdone
      cases hdone

theorem Sound.step (hs : s.Sound) {operation : Operation}
    (h : s.step settings operation = some (reply, s')) : s'.Sound := by
  obtain ⟨hw, hgrow⟩ := grows_step hs.workspace h
  refine ⟨hw, ?_⟩
  cases operation with
  | create =>
    cases h
    exact hs.memo.grow lasting_stored hgrow
  | clone source =>
    obtain ⟨g, _, h⟩ := Option.bind_eq_some_iff.mp h
    cases h
    exact hs.memo.grow lasting_stored hgrow
  | errand id errand =>
    obtain ⟨g, hg, hdone⟩ := Option.bind_eq_some_iff.mp h
    by_cases hf : errand.Fits g
    · rw [step_errand hg hf] at h
      cases h
      exact hs.memo.run lasting_stored (fun d => earned_stored (settings d)) hs.workspace hg hf
    · rw [if_neg hf] at hdone
      cases hdone

end Session

/-! ## All operations -/

namespace Office

variable {dispatchers : Nat → Dispatcher} {o o' : Office} {reply : Reply}

structure Sound (o : Office) : Prop where
  workspace : o.workspace.Sound
  memos : ∀ m, Lodged o.workspace (o.memos m)

theorem sound_empty : empty.Sound := ⟨NockDispatch.sound_empty, fun _ => kept_empty _ _⟩

theorem Sound.session (ho : o.Sound) (m : Nat) : Session.Sound ⟨o.workspace, o.memos m⟩ :=
  ⟨ho.workspace, ho.memos m⟩

/-- Whatever is in the memos, an operation leaves every graph where it was, or grown. -/
theorem grows_step (hw : o.workspace.Sound) {operation : Operation}
    (h : o.step dispatchers operation = some (reply, o')) :
    o'.workspace.Sound ∧ o.workspace.Grows o'.workspace := by
  obtain ⟨⟨reply, left⟩, hstep, hleft⟩ := Option.bind_eq_some_iff.mp h
  cases hleft
  exact Session.grows_step (s := ⟨o.workspace, o.memos (operation.memo dispatchers)⟩) hw hstep

theorem grows_after (hw : o.workspace.Sound) {operations : List Operation}
    (h : o.after dispatchers operations = some o') :
    o'.workspace.Sound ∧ o.workspace.Grows o'.workspace := by
  induction operations generalizing o with
  | nil =>
    cases h
    exact ⟨hw, hw.grows_refl⟩
  | cons operation rest ih =>
    obtain ⟨⟨reply, next⟩, hstep, hrest⟩ := Option.bind_eq_some_iff.mp h
    obtain ⟨hnext, hgrow⟩ := grows_step hw hstep
    obtain ⟨hsound, hgrow'⟩ := ih hnext hrest
    exact ⟨hsound, hgrow.trans hgrow'⟩

/-- An operation keeps an office sound. It touches one memo, and the entries of the others stay
good because the graphs only grow. -/
theorem Sound.step (ho : o.Sound) {operation : Operation}
    (h : o.step dispatchers operation = some (reply, o')) : o'.Sound := by
  obtain ⟨hw, hgrow⟩ := grows_step ho.workspace h
  obtain ⟨⟨reply, left⟩, hstep, hleft⟩ := Option.bind_eq_some_iff.mp h
  cases hleft
  refine ⟨hw, fun m => ?_⟩
  by_cases hm : m = operation.memo dispatchers
  · subst hm
    simp only [Function.update_self]
    exact ((ho.session _).step hstep).memo
  · simp only [Function.update_of_ne hm]
    exact (ho.memos m).grow lasting_stored hgrow

theorem Sound.after (ho : o.Sound) {operations : List Operation}
    (h : o.after dispatchers operations = some o') : o'.Sound := by
  induction operations generalizing o with
  | nil =>
    cases h
    exact ho
  | cons operation rest ih =>
    obtain ⟨⟨reply, next⟩, hstep, hrest⟩ := Option.bind_eq_some_iff.mp h
    exact ih (ho.step hstep) hrest

theorem step_errand (dispatchers : Nat → Dispatcher) (hg : o.workspace.graph? id = some g)
    {errand : Errand} (hf : errand.Fits g) :
    ∃ m, o.step dispatchers (.errand id errand) =
      some ((errand.run (fun d => (dispatchers d).settings) (o.memos m) g).1.1,
        ⟨o.workspace.put id (errand.run (fun d => (dispatchers d).settings) (o.memos m) g).2,
          Function.update o.memos m
            (errand.run (fun d => (dispatchers d).settings) (o.memos m) g).1.2⟩) := by
  refine ⟨(Operation.errand id errand).memo dispatchers, ?_⟩
  rw [step, Session.step_errand (s := ⟨o.workspace, o.memos _⟩) hg hf]
  rfl

/-- After any history, no graph has stored a node twice, and its ids stand for nouns one to one.
Every errand whose ids are ids of its graph can be done, and what it hands out are ids of the graph
that it leaves. Whatever happens later on, with success or not, a graph keeps its nodes in their
places, and with them the noun of every id. -/
theorem canonical_after {past : List Operation} (h : empty.after dispatchers past = some o) :
    (∀ id g, o.workspace.graph? id = some g → g.Canonical) ∧
    (∀ id g errand, o.workspace.graph? id = some g → Errand.Fits g errand →
      ∃ reply o' g', o.step dispatchers (.errand id errand) = some (reply, o') ∧
        o'.workspace.graph? id = some g' ∧ ∀ p ∈ reply.ids, g'.Stored p) ∧
    (∀ future o', o.after dispatchers future = some o' →
      ∀ id g, o.workspace.graph? id = some g →
        ∃ g', o'.workspace.graph? id = some g' ∧ g.nodes.toList <+: g'.nodes.toList ∧
          ∀ p a, g.Denotes p a → g'.Denotes p a) := by
  have ho := sound_empty.after h
  refine ⟨fun id g hg => (ho.workspace.wellFormed hg).canonical, ?_, ?_⟩
  · intro id g errand hg hf
    obtain ⟨m, hstep⟩ := step_errand dispatchers hg hf
    have hput := o.workspace.graph?_put hg
      (errand.run (fun d => (dispatchers d).settings) (o.memos m) g).2 id
    rw [if_pos rfl] at hput
    exact ⟨_, _, _, hstep, hput, Errand.stored_run (ho.memos m) ho.workspace hg hf⟩
  · intro future o' hfuture id g hg
    obtain ⟨g', hg', hgrow⟩ := (grows_after ho.workspace hfuture).2 hg
    exact ⟨g', hg', hgrow.extend.appends, fun p a hd => hd.extend hgrow.extend⟩

/-- A text without its last brackets is read on a graph and on its clone, where one more noun was
stored before. -/
def unclosedTwice : List Operation :=
  [.create, .errand ⟨0⟩ (.work (.parse "[1 [2 3]")), .clone ⟨0⟩, .errand ⟨1⟩ (.work (.cord "nest")),
    .errand ⟨1⟩ (.work (.parse "[1 [2 3]"))]

theorem canonical_after_unclosedTwice :
    ∃ o, empty.after (fun _ => ⟨.standard, 0⟩) unclosedTwice = some o ∧
      ∀ id g, o.workspace.graph? id = some g → g.Canonical := by
  have hdone : empty.after (fun _ => ⟨.standard, 0⟩) unclosedTwice = some _ := rfl
  exact ⟨_, hdone, (canonical_after hdone).1⟩

end Office
end NockDispatch
