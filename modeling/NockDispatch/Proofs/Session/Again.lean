import NockDispatch.Proofs.Session.History

/-!
# Doing it again

What was done once on a graph can be done again later: it gives the same answer and stores
nothing, however the graph has grown since. This holds of every task and of every inquiry that
leaves the memo alone, of failures as well as of products, because all that is stored on the way
to an answer was stored the first time.
-/

namespace NockDispatch

open Nest Text

variable {g h : Graph}

theorem Task.run_again (wf : g.WellFormed) (wf' : h.WellFormed) {task : Task}
    (hids : ∀ id ∈ task.ids, g.Stored id) (hext : (task.run g).2.Extends h) :
    task.run h = ((task.run g).1, h) := by
  have hgrow := (task.grows_run wf hids).extend.trans hext
  cases task with
  | atom value =>
    have hagain : h.atom value = ((g.atom value).1, h) := Graph.intern_again wf wf' hext
    simp only [run, hagain]
  | cord text =>
    have hagain : h.cord text = ((g.cord text).1, h) := Graph.intern_again wf wf' hext
    simp only [run, hagain]
  | cell head tail =>
    have hagain : h.cell head tail = ((g.cell head tail).1, h) := Graph.intern_again wf wf' hext
    simp only [run, hagain]
  | triple a b c =>
    have hrest : g.Grows (g.cell b c).2 :=
      Graph.grows_intern wf ⟨hids b (by simp [ids]), hids c (by simp [ids])⟩
    have hcell : (g.cell b c).2.Extends h := (Graph.extends_intern _ _).trans hext
    have hagain : h.cell b c = ((g.cell b c).1, h) := Graph.intern_again wf wf' hcell
    have hagain' : h.cell a (g.cell b c).1 = (((g.cell b c).2.cell a (g.cell b c).1).1, h) :=
      Graph.intern_again hrest.wellFormed wf' hext
    simp only [run, Graph.triple_eq, hagain, hagain']
  | edit root axis value =>
    have hagain := Graph.edit_again wf wf' (hids root (by simp [ids])) (hids value (by simp [ids]))
      hext
    simp only [run, hagain]
  | wordEdit root axis value =>
    simp only [run, Graph.wordEdit_eq] at hext ⊢
    rw [Graph.edit_again wf wf' (hids root (by simp [ids])) (hids value (by simp [ids])) hext]
  | parse text => simp only [run, readNoun_again wf wf' hext]
  | read tokens => simp only [run, Reader.read_again wf wf' tokens hext]
  | evaluate context subject formula =>
    have hagain := Graph.eval_again wf wf' (hids subject (by simp [ids]))
      (hids formula (by simp [ids])) hext
    simp only [run, hagain]
  | takeGate gate => simp only [run, Args.ofGate_extend wf hgrow (hids gate (by simp [ids]))]
  | takeParts van sut tel ref =>
    have hsame := Args.ofParts_extend wf hgrow (hids van (by simp [ids]))
      (hids tel (by simp [ids])) sut ref
    simp only [run, hsame]
  | build limits arm args =>
    obtain ⟨terms, hd⟩ := (Args.stored_iff.mpr hids).exists_denotes wf
    have hl := leaves_buildCore wf hd limits arm
    have hl' := leaves_buildCore wf' (hd.extend hgrow) limits arm
    simp only [run, hl.again wf wf' hext hl']
  | invoke limits core =>
    obtain ⟨a, ha⟩ := Graph.exists_denotes wf (hids core (by simp [ids]))
    have hl := leaves_invoke wf ha limits
    have hl' := leaves_invoke wf' (ha.extend hgrow) limits
    simp only [run, hl.again wf wf' hext hl']

theorem Nest.Inquiry.perform_direct_again (wf : g.WellFormed) (wf' : h.WellFormed)
    {inquiry : Inquiry} (hids : ∀ id ∈ inquiry.ids, g.Stored id) (settings : Settings)
    (memo memo' : Memo)
    (hext : ((inquiry.direct.answer settings).perform memo g).2.Extends h) :
    (inquiry.direct.answer settings).perform memo' h =
      ((((inquiry.direct.answer settings).perform memo g).1.1, memo'), h) := by
  rw [perform_direct] at hext ⊢
  rw [perform_direct]
  cases hargs : inquiry.take g with
  | error e =>
    rw [hargs] at hext
    rw [take_extend wf hext hids, hargs]
  | ok args =>
    rw [hargs] at hext
    have hs := stored_take wf hids hargs
    have hgrow : g.Grows (compute settings args g).2 := grows_compute wf hs
    rw [take_extend wf (hgrow.extend.trans hext) hids, hargs]
    simp only [compute_again wf hs wf' hext]

def Errand.Alone : Errand → Prop
  | work _ => True
  | ask _ inquiry => inquiry.mayFind = false

/-- Reading a text, editing, evaluating, and computing the answer to a nest check, be it with
success or not, give the same again after the graph has grown, and store nothing. -/
theorem Errand.run_repeated (wf : g.WellFormed) {errand : Errand} (hf : errand.Fits g)
    (ha : errand.Alone) (dispatchers : Nat → Settings) (memo memo' : Memo)
    (hgrow : (errand.run dispatchers memo g).2.Grows h) :
    errand.run dispatchers memo' h = (((errand.run dispatchers memo g).1.1, memo'), h) := by
  have hext := hgrow.extend
  cases errand with
  | work task =>
    simp only [run, Task.run_again wf hgrow.wellFormed hf.stored hext]
  | ask d inquiry =>
    have hdirect : inquiry.direct = inquiry := Inquiry.direct_eq_self ha
    have hagain :=
      Inquiry.perform_direct_again wf hgrow.wellFormed hf.stored (dispatchers d) memo memo'
    rw [hdirect] at hagain
    simp only [run, hagain hext]

/-- A text whose brackets are not all closed leaves what stands before its end. -/
theorem Errand.run_repeated_unclosed :
    let errand := Errand.work (.parse "[[1 2] 0x3 %nest")
    let first := errand.run (fun _ => .standard) .empty (.empty ⟨0⟩)
    let later := (first.2.put (.cell (.atom 9) (.atom 1))).2
    errand.run (fun _ => .standard) .empty later = ((first.1.1, .empty), later) := by
  intro errand first later
  have hfits : errand.Fits (.empty ⟨0⟩) := ⟨List.forall_mem_nil _, List.forall_mem_nil _⟩
  have hfirst := errand.grows_run (Graph.wellFormed_empty ⟨0⟩) hfits (fun _ => .standard) .empty
  exact errand.run_repeated (Graph.wellFormed_empty ⟨0⟩) hfits trivial (fun _ => .standard) .empty
    .empty (Graph.grows_put hfirst.wellFormed _).1

end NockDispatch
