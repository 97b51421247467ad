import NockDispatch.Proofs.Nest.Tally
import NockDispatch.Proofs.Text.Reading

/-!
# Tasks on a graph

A task is one operation on a graph that needs no memo: storing a noun, editing, reading a
text, evaluating, or building or running a nest core. Whatever it answers, the graph has
grown.
-/

namespace NockDispatch

open Nest Text

inductive Reply where
  | graph (id : GraphId)
  | node (id : NodeId)
  | slot (found : Option NodeId)
  /-- A reading, with the tokens that it has left. -/
  | noun (outcome : Except ReadError NodeId) (rest : List Token)
  | evaluated (outcome : Except EvalError NodeId) (context : Context)
  | checked (outcome : Except NestError NodeId)
  | taken (outcome : Except CallError Args)

/-- The ids of nodes that a reply hands out. -/
def Reply.ids : Reply → List NodeId
  | .graph _ => []
  | .node id => [id]
  | .slot found => found.toList
  | .noun outcome _ => outcome.toOption.toList
  | .evaluated outcome _ => outcome.toOption.toList
  | .checked outcome => outcome.toOption.toList
  | .taken (.ok args) => args.ids
  | .taken (.error _) => []

theorem mem_toList_toOption {outcome : Except ε NodeId} {id : NodeId} :
    id ∈ outcome.toOption.toList ↔ outcome = .ok id := by
  cases outcome <;> simp [Except.toOption, eq_comm]

inductive Task where
  | atom (value : Nat)
  | cord (text : String)
  | cell (head tail : NodeId)
  | triple (a b c : NodeId)
  | edit (root : NodeId) (axis : Nat) (value : NodeId)
  | wordEdit (root : NodeId) (axis : UInt64) (value : NodeId)
  | parse (text : String)
  | read (tokens : List Token)
  | evaluate (context : Context) (subject formula : NodeId)
  | takeGate (gate : NodeId)
  | takeParts (van sut tel ref : NodeId)
  | build (limits : Limits) (arm : UInt64) (args : Args)
  | invoke (limits : Limits) (core : NodeId)

namespace Task

def ids : Task → List NodeId
  | .atom _ | .cord _ | .parse _ | .read _ => []
  | .cell head tail => [head, tail]
  | .triple a b c => [a, b, c]
  | .edit root _ value | .wordEdit root _ value => [root, value]
  | .evaluate _ subject formula => [subject, formula]
  | .takeGate gate => [gate]
  | .takeParts van sut tel ref => [van, sut, tel, ref]
  | .build _ _ args => args.ids
  | .invoke _ core => [core]

def taken : Task → List Args
  | .build _ _ args => [args]
  | .atom _ | .cord _ | .cell _ _ | .triple _ _ _ | .edit _ _ _ | .wordEdit _ _ _ | .parse _
  | .read _ | .evaluate _ _ _ | .takeGate _ | .takeParts _ _ _ _ | .invoke _ _ => []

def run (g : Graph) : Task → Reply × Graph
  | .atom value => (.node (g.atom value).1, (g.atom value).2)
  | .cord text => (.node (g.cord text).1, (g.cord text).2)
  | .cell head tail => (.node (g.cell head tail).1, (g.cell head tail).2)
  | .triple a b c => (.node (g.triple a b c).1, (g.triple a b c).2)
  | .edit root axis value => (.slot (g.edit root axis value).1, (g.edit root axis value).2)
  | .wordEdit root axis value =>
    (.slot (g.wordEdit root axis value).1, (g.wordEdit root axis value).2)
  | .parse text => (.noun (readNoun g text).1 [], (readNoun g text).2)
  | .read tokens =>
    let reading := Reader.read g tokens
    (.noun reading.outcome reading.rest, reading.graph)
  | .evaluate context subject formula =>
    let evaluation := context.eval g subject formula
    (.evaluated evaluation.outcome evaluation.context, evaluation.graph)
  | .takeGate gate => (.taken (Args.ofGate g gate), g)
  | .takeParts van sut tel ref => (.taken (Args.ofParts g van sut tel ref), g)
  | .build limits arm args =>
    let built := (buildCore limits arm args).perform g
    (.checked built.1, built.2)
  | .invoke limits core =>
    let answer := (Nest.invoke limits core).perform g
    (.checked answer.1, answer.2)

end Task

theorem Task.grows_run {g : Graph} (wf : g.WellFormed) {task : Task}
    (hids : ∀ id ∈ task.ids, g.Stored id) : g.Grows (task.run g).2 := by
  cases task with
  | atom value => exact Graph.grows_intern wf trivial
  | cord text => exact Graph.grows_intern wf trivial
  | cell head tail =>
    exact Graph.grows_intern wf ⟨hids head (by simp [ids]), hids tail (by simp [ids])⟩
  | triple a b c =>
    have ha := hids a (by simp [ids])
    have hrest : g.Grows (g.cell b c).2 :=
      Graph.grows_intern wf ⟨hids b (by simp [ids]), hids c (by simp [ids])⟩
    have hcell := Graph.stored_intern wf (.cell b c)
    exact hrest.trans (Graph.grows_intern hrest.wellFormed ⟨hrest.stored ha, hcell⟩)
  | edit root axis value =>
    exact Graph.grows_edit wf (hids root (by simp [ids])) (hids value (by simp [ids])) axis
  | wordEdit root axis value =>
    simp only [run, Graph.wordEdit_eq]
    exact Graph.grows_edit wf (hids root (by simp [ids])) (hids value (by simp [ids])) axis.toNat
  | parse text => exact (grows_readNoun wf text).1
  | read tokens => exact (Reader.grows_read wf tokens).1
  | evaluate context subject formula =>
    obtain ⟨a, ha⟩ := Graph.exists_denotes wf (hids subject (by simp [ids]))
    obtain ⟨f, hf⟩ := Graph.exists_denotes wf (hids formula (by simp [ids]))
    exact (ha.eval wf hf context).grows wf
  | takeGate gate => exact .refl wf
  | takeParts van sut tel ref => exact .refl wf
  | build limits arm args =>
    obtain ⟨terms, hd⟩ := (Args.stored_iff.mpr hids).exists_denotes wf
    exact (leaves_buildCore wf hd limits arm).grows wf
  | invoke limits core =>
    obtain ⟨a, ha⟩ := Graph.exists_denotes wf (hids core (by simp [ids]))
    exact (leaves_invoke wf ha limits).grows wf

/-- The ids that a task gives back are ids of the graph that it leaves. -/
theorem Task.stored_run {g : Graph} (wf : g.WellFormed) {task : Task}
    (hids : ∀ id ∈ task.ids, g.Stored id) : ∀ p ∈ (task.run g).1.ids, (task.run g).2.Stored p := by
  intro p hp
  cases task with
  | atom value =>
    obtain rfl := List.mem_singleton.mp hp
    exact Graph.stored_intern wf _
  | cord text =>
    obtain rfl := List.mem_singleton.mp hp
    exact Graph.stored_intern wf _
  | cell head tail =>
    obtain rfl := List.mem_singleton.mp hp
    exact Graph.stored_intern wf _
  | triple a b c =>
    obtain rfl := List.mem_singleton.mp hp
    have hrest : g.Grows (g.cell b c).2 :=
      Graph.grows_intern wf ⟨hids b (by simp [ids]), hids c (by simp [ids])⟩
    exact Graph.stored_intern hrest.wellFormed _
  | edit root axis value =>
    have hp : (g.edit root axis value).1 = some p := Option.mem_toList.mp hp
    exact Graph.stored_edit wf (hids root (by simp [ids])) (hids value (by simp [ids])) hp
  | wordEdit root axis value =>
    have hp : (g.wordEdit root axis value).1 = some p := Option.mem_toList.mp hp
    rw [Graph.wordEdit_eq] at hp
    have hstored := Graph.stored_edit wf (hids root (by simp [ids])) (hids value (by simp [ids])) hp
    simpa only [run, Graph.wordEdit_eq] using hstored
  | parse text => exact (grows_readNoun wf text).2 p (mem_toList_toOption.mp hp)
  | read tokens => exact (Reader.grows_read wf tokens).2 p (mem_toList_toOption.mp hp)
  | evaluate context subject formula =>
    obtain ⟨a, ha⟩ := Graph.exists_denotes wf (hids subject (by simp [ids]))
    obtain ⟨f, hf⟩ := Graph.exists_denotes wf (hids formula (by simp [ids]))
    obtain ⟨b, hb⟩ := (ha.eval wf hf context).denotes (mem_toList_toOption.mp hp)
    exact hb.stored
  | takeGate gate =>
    cases hargs : Args.ofGate g gate with
    | error e => simp [run, hargs, Reply.ids] at hp
    | ok args =>
      have hs := Args.stored_ofGate wf (hids gate (by simp [ids])) hargs
      exact Args.stored_iff.mp hs p (by simpa [run, hargs, Reply.ids] using hp)
  | takeParts van sut tel ref =>
    cases hargs : Args.ofParts g van sut tel ref with
    | error e => simp [run, hargs, Reply.ids] at hp
    | ok args =>
      obtain rfl := Args.ofParts_eq_ok hargs
      exact hids p (by simpa [run, hargs, Reply.ids, Args.ids, ids] using hp)
  | build limits arm args =>
    obtain ⟨terms, hd⟩ := (Args.stored_iff.mpr hids).exists_denotes wf
    obtain ⟨b, hb⟩ := (leaves_buildCore wf hd limits arm).denotes (mem_toList_toOption.mp hp)
    exact hb.stored
  | invoke limits core =>
    obtain ⟨a, ha⟩ := Graph.exists_denotes wf (hids core (by simp [ids]))
    obtain ⟨b, hb⟩ := (leaves_invoke wf ha limits).denotes (mem_toList_toOption.mp hp)
    exact hb.stored

end NockDispatch
