import NockDispatch.Nest.Dispatch
import NockDispatch.Proofs.Nest.Call
import NockDispatch.Proofs.Eval.Nock

/-!
# Nest checks of nouns

A nest check told of nouns alone, and the machine that computes it on ids keeping step with
that. What a check answers and what it stores is fixed by the nouns of its arguments, the
limits and the nest arm.
-/

namespace NockDispatch

namespace Nest

structure Terms where
  van : Noun
  sut : Noun
  tel : Noun
  ref : Noun

structure Args.Denotes (g : Graph) (args : Args) (terms : Terms) : Prop where
  van : g.Denotes args.van terms.van
  sut : g.Denotes args.sut terms.sut
  tel : g.Denotes args.tel terms.tel
  ref : g.Denotes args.ref terms.ref

theorem Args.Denotes.extend {g h : Graph} (hgh : g.Extends h) {args : Args} {terms : Terms}
    (hd : args.Denotes g terms) : args.Denotes h terms :=
  ⟨hd.van.extend hgh, hd.sut.extend hgh, hd.tel.extend hgh, hd.ref.extend hgh⟩

theorem Args.Denotes.stored {g : Graph} {args : Args} {terms : Terms}
    (hd : args.Denotes g terms) : args.Stored g :=
  ⟨hd.van.stored, hd.sut.stored, hd.tel.stored, hd.ref.stored⟩

/-- The nouns can be those of a nest check. -/
def Terms.Fit (terms : Terms) : Prop :=
  (∃ yes, terms.tel = .loobean yes) ∧ (terms.van.slot? Axis.sample.toNat).isSome

theorem Args.ofParts_of_denotes {g : Graph} {args : Args} {terms : Terms}
    (hd : args.Denotes g terms) (hf : terms.Fit) :
    ofParts g args.van args.sut args.tel args.ref = .ok args := by
  obtain ⟨⟨yes, htel⟩, hvan⟩ := hf
  obtain ⟨sut, hsut⟩ := Option.isSome_iff_exists.mp hvan
  obtain ⟨id, hid, _⟩ := hd.van.slot?_some hsut
  have hatom := hd.tel
  rw [htel] at hatom
  have hcheck : checkTel g args.tel = .ok () := by
    rw [checkTel, hatom.atom?_atom]
    cases yes <;> rfl
  have hsample : sampleOf g args.van = .ok id := by
    rw [sampleOf, Graph.wordSlot?_eq, hid]
  rw [ofParts, hcheck, hsample]
  rfl

def Terms.place (terms : Terms) (g : Graph) : Args × Graph :=
  let van := g.put terms.van
  let sut := van.2.put terms.sut
  let tel := sut.2.put terms.tel
  let ref := tel.2.put terms.ref
  (⟨van.1, sut.1, tel.1, ref.1⟩, ref.2)

theorem Terms.grows_place {g : Graph} (wf : g.WellFormed) (terms : Terms) :
    g.Grows (terms.place g).2 ∧ (terms.place g).1.Denotes (terms.place g).2 terms := by
  obtain ⟨hvan, hd₁⟩ := Graph.grows_put wf terms.van
  obtain ⟨hsut, hd₂⟩ := Graph.grows_put hvan.wellFormed terms.sut
  obtain ⟨htel, hd₃⟩ := Graph.grows_put hsut.wellFormed terms.tel
  obtain ⟨href, hd₄⟩ := Graph.grows_put htel.wellFormed terms.ref
  have hrest := htel.trans href
  exact ⟨(hvan.trans hsut).trans hrest, hd₁.extend (hsut.trans hrest).extend,
    hd₂.extend hrest.extend, hd₃.extend href.extend, hd₄⟩

/-- What a nest check of nouns leaves beside its answer. -/
structure Tally where
  stored : List Noun
  entries : Nat

abbrev TallyM := EStateM NestError Tally

namespace TallyM

def store (before : List Noun) (a : Noun) : TallyM Noun := fun t =>
  .ok a { t with stored := t.stored ++ (before ++ [a]) }

def interpret (limits : Limits) (a f : Noun) : TallyM Noun := fun t =>
  match Noun.nock limits a f with
  | .ok p l => .ok p ⟨t.stored ++ l.stored, t.entries + 1⟩
  | .error e l => .error (.interpreter e) ⟨t.stored ++ l.stored, t.entries + 1⟩

def present (axis : UInt64) : Option Noun → TallyM Noun
  | some a => return a
  | none => throw (.interpreter (.missingAxis axis.toNat))

def edit (a : Noun) (axis : UInt64) (b : Noun) : TallyM Noun := do
  store [] (← present axis (a.edit? axis.toNat b))

end TallyM

namespace Terms

def pullFormula (arm : UInt64) : Noun :=
  .triple (.atom 9) (.atom arm.toNat) (.cell (.atom 0) (.atom 1))

def buildCore (limits : Limits) (arm : UInt64) (terms : Terms) : TallyM Noun := do
  let core ← TallyM.edit terms.van Axis.sample terms.sut
  let formula ← TallyM.store [.atom arm.toNat, .atom 9] (pullFormula arm)
  let gate ← TallyM.interpret limits core formula
  let gate ← TallyM.edit gate Axis.sampleHead terms.tel
  TallyM.edit gate Axis.sampleTail terms.ref

def invoke (limits : Limits) (core : Noun) : TallyM Noun := do
  let battery ← TallyM.present Axis.battery (core.slot? Axis.battery.toNat)
  TallyM.interpret limits core battery

def compute (limits : Limits) (arm : UInt64) (terms : Terms) : TallyM Noun := do
  invoke limits (← buildCore limits arm terms)

end Terms

variable {g : Graph}

theorem pullFormula_eq (wf : g.WellFormed) (arm : UInt64) :
    pullFormula g arm =
      (g.putAll [.atom arm.toNat, .atom 9]).put (Terms.pullFormula arm) := by
  obtain ⟨harm, hd⟩ := Graph.grows_put wf (.atom arm.toNat)
  obtain ⟨hnine, hd'⟩ := Graph.grows_put harm.wellFormed (.atom 9)
  have hd := hd.extend hnine.extend
  have hone : Axis.whole.toNat = 1 := rfl
  rw [pullFormula, hone, Terms.pullFormula, Noun.triple, Graph.putAll_cons, Graph.putAll_cons,
    Graph.putAll_nil, Graph.put_cell, Graph.put_of_denotes hnine.wellFormed hd', Graph.put_cell,
    Graph.put_of_denotes hnine.wellFormed hd, Graph.put_cell]
  simp only [Graph.put_atom, Graph.triple_eq]

/-! ## Machines keep step with tallies -/

/-- A machine that has come from `start` while a tally was filled. -/
structure Machine.Tied (start machine : Machine) (tally : Tally) : Prop where
  graph : machine.graph = start.graph.putAll tally.stored
  wellFormed : machine.graph.WellFormed
  entries : machine.entries = start.entries + tally.entries

abbrev Machine.ties (start : Machine) : Ties Machine Tally :=
  ⟨Machine.graph, start.Tied, Tied.wellFormed⟩

theorem Machine.Tied.start {machine : Machine} (wf : machine.graph.WellFormed) :
    machine.Tied machine ⟨[], 0⟩ :=
  ⟨rfl, wf, rfl⟩

variable {start : Machine} {limits : Limits} {rel : Graph → α → β → Prop}

theorem follows_store {save : Graph → NodeId × Graph} {before : List Noun} {a : Noun}
    (hs : ∀ h, g.Extends h → h.WellFormed → save h = (h.putAll before).put a) :
    Follows start.ties g Graph.Denotes (MachineM.store save) (TallyM.store before a) := by
  intro machine tally ht hg
  have hbefore := Graph.grows_putAll ht.wellFormed before
  obtain ⟨hgrow, hd⟩ := Graph.grows_put hbefore.wellFormed a
  have hrun : MachineM.store save machine =
      .ok ((machine.graph.putAll before).put a).1
        { machine with graph := ((machine.graph.putAll before).put a).2 } := by
    rw [← hs machine.graph hg ht.wellFormed]
    rfl
  rw [hrun]
  have hgraph : ((machine.graph.putAll before).put a).2 =
      start.graph.putAll (tally.stored ++ (before ++ [a])) := by simp [ht.graph]
  exact .ok ⟨hgraph, hgrow.wellFormed, ht.entries⟩
    (hg.trans (hbefore.extend.trans hgrow.extend)) hd

theorem interpret_eq (limits : Limits) (subject formula : NodeId) (machine : Machine) :
    MachineM.interpret limits subject formula machine =
      match machine.graph.nock limits subject formula with
      | (.ok product, graph) => .ok product ⟨graph, machine.entries + 1⟩
      | (.error error, graph) => .error (.interpreter error) ⟨graph, machine.entries + 1⟩ := rfl

theorem follows_interpret {subject formula : NodeId} {a f : Noun} (hs : g.Denotes subject a)
    (hf : g.Denotes formula f) :
    Follows start.ties g Graph.Denotes (MachineM.interpret limits subject formula)
      (TallyM.interpret limits a f) := by
  intro machine tally ht hg
  have hrun := (hs.extend hg).nock ht.wellFormed (hf.extend hg) limits
  rw [interpret_eq, TallyM.interpret]
  generalize machine.graph.nock limits subject formula = result at hrun ⊢
  generalize Noun.nock limits a f = model at hrun ⊢
  have htied : ∀ nouns, start.Tied ⟨machine.graph.putAll nouns, machine.entries + 1⟩
      ⟨tally.stored ++ nouns, tally.entries + 1⟩ := by
    intro nouns
    refine ⟨by simp [ht.graph], (Graph.grows_putAll ht.wellFormed nouns).wellFormed, ?_⟩
    simp only [ht.entries]
    omega
  have hext : ∀ nouns, g.Extends (machine.graph.putAll nouns) := fun nouns =>
    hg.trans (Graph.grows_putAll ht.wellFormed nouns).extend
  cases hrun with
  | ok hd => exact .ok (htied _) (hext _) hd
  | error => exact .error (htied _) (hext _)

theorem follows_present (axis : UInt64) {root : NodeId} {a : Noun} (hd : g.Denotes root a)
    {next : NodeId → MachineM α} {next' : Noun → TallyM β}
    (hn : ∀ id b, g.Denotes id b → Follows start.ties g rel (next id) (next' b)) :
    Follows start.ties g rel
      (MachineM.read (·.wordSlot? root axis) >>= fun found =>
        MachineM.present axis found >>= next)
      (TallyM.present axis (a.slot? axis.toNat) >>= next') := by
  cases hb : a.slot? axis.toNat with
  | none =>
    refine .look (x := none) (fun machine hg _ => ?_) (.fail fun _ _ => rfl)
    rw [MachineM.read, Graph.wordSlot?_eq, (hd.extend hg).slot?_none hb]
  | some b =>
    obtain ⟨id, hid, hd'⟩ := hd.slot?_some hb
    refine .look (x := some id) (fun machine hg _ => ?_) (hn id b hd')
    rw [MachineM.read, Graph.wordSlot?_eq, hd.slot?_extend hg, hid]

theorem follows_edit {root value : NodeId} {a b : Noun} (axis : UInt64) (hd : g.Denotes root a)
    (hv : g.Denotes value b) :
    Follows start.ties g Graph.Denotes (MachineM.edit root axis value) (TallyM.edit a axis b) := by
  have hedit : ∀ machine : Machine, g.Extends machine.graph → machine.graph.WellFormed →
      machine.graph.wordEdit root axis value = machine.graph.putEdit (a.edit? axis.toNat b) := by
    intro machine hg wf
    rw [Graph.wordEdit_eq]
    exact (hd.extend hg).edit wf (hv.extend hg) axis.toNat
  unfold MachineM.edit TallyM.edit
  cases hc : a.edit? axis.toNat b with
  | none =>
    refine .look (x := none) (fun machine hg wf => ?_) (.throw _)
    have hact : MachineM.store (·.wordEdit root axis value) machine =
        .ok (machine.graph.wordEdit root axis value).1
          { machine with graph := (machine.graph.wordEdit root axis value).2 } := rfl
    rw [hact, hedit machine hg wf, hc]
    rfl
  | some c =>
    intro machine tally ht hg
    have hact : MachineM.store (·.wordEdit root axis value) machine =
        .ok (some (machine.graph.put c).1) { machine with graph := (machine.graph.put c).2 } := by
      change EStateM.Result.ok (machine.graph.wordEdit root axis value).1
        { machine with graph := (machine.graph.wordEdit root axis value).2 } = _
      rw [hedit machine hg ht.wellFormed, hc]
      rfl
    have hstore : Follows start.ties g Graph.Denotes (MachineM.store (·.put c))
        (TallyM.store [] c) := follows_store fun _ _ _ => rfl
    change Agree start.ties g Graph.Denotes (EStateM.bind _ _ machine) _
    rw [EStateM.bind, hact]
    exact hstore machine tally ht hg

theorem follows_pullFormula (arm : UInt64) :
    Follows start.ties g Graph.Denotes (MachineM.store (pullFormula · arm))
      (TallyM.store [.atom arm.toNat, .atom 9] (Terms.pullFormula arm)) :=
  follows_store fun _ _ wf => pullFormula_eq wf arm

theorem follows_buildCore {arm : UInt64} {args : Args} {terms : Terms}
    (hd : args.Denotes g terms) :
    Follows start.ties g Graph.Denotes (buildCore limits arm args)
      (terms.buildCore limits arm) := by
  unfold buildCore Terms.buildCore
  apply (follows_edit Axis.sample hd.van hd.sut).bind
  intro g₁ core a h₁ hcore
  apply (follows_pullFormula arm).bind
  intro g₂ formula f h₂ hformula
  apply (follows_interpret (hcore.extend h₂) hformula).bind
  intro g₃ gate b h₃ hgate
  have htel := hd.tel.extend ((h₁.trans h₂).trans h₃)
  apply (follows_edit Axis.sampleHead hgate htel).bind
  intro g₄ gate' c h₄ hgate'
  have href := hd.ref.extend (((h₁.trans h₂).trans h₃).trans h₄)
  exact follows_edit Axis.sampleTail hgate' href

theorem follows_invoke {core : NodeId} {a : Noun} (hd : g.Denotes core a) :
    Follows start.ties g Graph.Denotes (invoke limits core) (Terms.invoke limits a) :=
  follows_present Axis.battery hd fun _ _ hf => follows_interpret hd hf

theorem follows_computeNest {settings : Settings} {args : Args} {terms : Terms}
    (hd : args.Denotes g terms) :
    Follows start.ties g Graph.Denotes (computeNest settings args)
      (terms.compute settings.limits settings.nestArm) :=
  (follows_buildCore hd).bind fun _ _ _ _ hcore => follows_invoke hcore

/-! ## Answers -/

/-- The answer of a machine on a graph, and the graph that it leaves. -/
def MachineM.perform (act : MachineM α) (g : Graph) : Except NestError α × Graph :=
  match act ⟨g, 0⟩ with
  | .ok answer machine => (.ok answer, machine.graph)
  | .error error machine => (.error error, machine.graph)

theorem MachineM.leaves_perform (wf : g.WellFormed) {act : MachineM NodeId}
    {model : TallyM Noun} (hf : Follows (Machine.ties ⟨g, 0⟩) g Graph.Denotes act model) :
    g.Leaves Tally.stored (model ⟨[], 0⟩) (act.perform g) := by
  have hrun := hf ⟨g, 0⟩ ⟨[], 0⟩ (.start wf) (.refl g)
  unfold MachineM.perform
  generalize act ⟨g, 0⟩ = result at hrun ⊢
  generalize model ⟨[], 0⟩ = result' at hrun ⊢
  cases hrun with
  | ok ht _ hd =>
    simp only [ht.graph] at hd ⊢
    exact .ok hd
  | error ht _ =>
    simp only [ht.graph]
    exact .error

theorem leaves_buildCore (wf : g.WellFormed) {args : Args} {terms : Terms}
    (hd : args.Denotes g terms) (limits : Limits) (arm : UInt64) :
    g.Leaves Tally.stored (terms.buildCore limits arm ⟨[], 0⟩)
      ((buildCore limits arm args).perform g) :=
  MachineM.leaves_perform wf (follows_buildCore hd)

theorem leaves_invoke (wf : g.WellFormed) {core : NodeId} {a : Noun} (hd : g.Denotes core a)
    (limits : Limits) :
    g.Leaves Tally.stored (Terms.invoke limits a ⟨[], 0⟩) ((invoke limits core).perform g) :=
  MachineM.leaves_perform wf (follows_invoke hd)

theorem Args.Stored.exists_denotes (wf : g.WellFormed) {args : Args} (hs : args.Stored g) :
    ∃ terms, args.Denotes g terms := by
  obtain ⟨van, hvan⟩ := Graph.exists_denotes wf hs.van
  obtain ⟨sut, hsut⟩ := Graph.exists_denotes wf hs.sut
  obtain ⟨tel, htel⟩ := Graph.exists_denotes wf hs.tel
  obtain ⟨ref, href⟩ := Graph.exists_denotes wf hs.ref
  exact ⟨⟨van, sut, tel, ref⟩, hvan, hsut, htel, href⟩

end Nest
end NockDispatch
