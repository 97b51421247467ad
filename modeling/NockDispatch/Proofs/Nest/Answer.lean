import NockDispatch.Proofs.Nest.Tally

/-!
# Answers of a dispatcher

An answer that was computed once is there for good: computing it again gives it again and
stores nothing. A dispatcher with its cache on finds an answer, and then leaves the graph
alone, or computes it and keeps it.
-/

namespace NockDispatch.Nest

def keyArgs (key : Memo.Key) : Args := ⟨key.van, key.sut, key.tel, key.ref⟩

theorem keyArgs_keyOf_whole (g : Graph) (args : Args) :
    keyArgs (keyOf g Axis.whole args) = args := by
  rw [keyOf, Graph.wordSlot?_whole]
  rfl

variable {g h : Graph} {settings : Settings} {args : Args} {terms : Terms} {memo : Memo}
  {p : NodeId}

def compute (settings : Settings) (args : Args) (g : Graph) : Except NestError NodeId × Graph :=
  (computeNest settings args).perform g

theorem leaves_compute (wf : g.WellFormed) (hd : args.Denotes g terms) :
    g.Leaves Tally.stored (terms.compute settings.limits settings.nestArm ⟨[], 0⟩)
      (compute settings args g) :=
  MachineM.leaves_perform wf (follows_computeNest hd)

theorem grows_compute (wf : g.WellFormed) (hs : args.Stored g) :
    g.Grows (compute settings args g).2 := by
  obtain ⟨terms, hd⟩ := hs.exists_denotes wf
  exact (leaves_compute wf hd).grows wf

def Terms.verdict (limits : Limits) (arm : UInt64) (terms : Terms) : Except NestError Noun :=
  outcome (terms.compute limits arm ⟨[], 0⟩)

/-- What is computed depends on the nouns of the arguments, wherever they are stored. -/
theorem means_compute (wf : g.WellFormed) (hd : args.Denotes g terms) :
    Means (compute settings args g) (terms.verdict settings.limits settings.nestArm) :=
  (leaves_compute wf hd).means

theorem denotes_compute (wf : g.WellFormed) (hs : args.Stored g)
    (hp : (compute settings args g).1 = .ok p) :
    ∃ a, (compute settings args g).2.Denotes p a := by
  obtain ⟨terms, hd⟩ := hs.exists_denotes wf
  exact (leaves_compute wf hd).denotes hp

/-- Computing the answer gives `p` and stores nothing, now and in all that `g` grows into. -/
def Answered (settings : Settings) (g : Graph) (args : Args) (p : NodeId) : Prop :=
  ∀ h, h.WellFormed → g.Extends h → compute settings args h = (.ok p, h)

theorem Answered.extend (ha : Answered settings g args p) (hgh : g.Extends h) :
    Answered settings h args p :=
  fun k wf hk => ha k wf (hgh.trans hk)

theorem compute_again (wf : g.WellFormed) (hs : args.Stored g) (wf' : h.WellFormed)
    (hext : (compute settings args g).2.Extends h) :
    compute settings args h = ((compute settings args g).1, h) := by
  obtain ⟨terms, hd⟩ := hs.exists_denotes wf
  have hl : g.Leaves Tally.stored _ (compute settings args g) := leaves_compute wf hd
  have hgh := (hl.grows wf).extend.trans hext
  exact hl.again wf wf' hext (leaves_compute wf' (hd.extend hgh))

theorem answered_compute (wf : g.WellFormed) (hs : args.Stored g)
    (hp : (compute settings args g).1 = .ok p) :
    Answered settings (compute settings args g).2 args p := by
  intro h wf' hext
  rw [← hp]
  exact compute_again wf hs wf' hext

/-! ## Dispatch -/

/-- What a dispatcher answers, and what it leaves of its memo and the graph. -/
def DeskM.perform (act : DeskM NodeId) (memo : Memo) (g : Graph) :
    (Except NestError NodeId × Memo) × Graph :=
  match act ⟨memo, ⟨g, 0⟩⟩ with
  | .ok answer desk => ((.ok answer, desk.memo), desk.machine.graph)
  | .error error desk => ((.error error, desk.memo), desk.machine.graph)

theorem bind_apply (x : EStateM ε σ α) (f : α → EStateM ε σ β) (s : σ) :
    (x >>= f) s =
      match x s with
      | .ok a s => f a s
      | .error e s => .error e s := rfl

theorem DeskM.compute_eq (act : MachineM α) (memo : Memo) (machine : Machine) :
    DeskM.compute act ⟨memo, machine⟩ =
      match act machine with
      | .ok answer machine => .ok answer ⟨memo, machine⟩
      | .error error machine => .error error ⟨memo, machine⟩ := rfl

theorem perform_nestDirect (settings : Settings) (args : Args) (memo : Memo) (g : Graph) :
    (nestDirect settings args).perform memo g =
      (((compute settings args g).1, memo), (compute settings args g).2) := by
  unfold DeskM.perform compute MachineM.perform
  rw [nestDirect, DeskM.compute_eq]
  cases computeNest settings args ⟨g, 0⟩ <;> rfl

theorem perform_nest_off (hc : settings.cache = false) :
    (nest settings args).perform memo g = (nestDirect settings args).perform memo g := by
  unfold nest
  rw [hc]
  rfl

theorem nest_eq (hc : settings.cache = true) (memo : Memo) (machine : Machine) :
    nest settings args ⟨memo, machine⟩ =
      match memo.find machine.graph.id (keyOf machine.graph settings.keyAxis args) with
      | (some answer, memo) => .ok answer ⟨memo, machine⟩
      | (none, memo) =>
        (do
          let answer ← nestDirect settings args
          DeskM.save (keyOf machine.graph settings.keyAxis args) answer
          return answer : DeskM NodeId) ⟨memo, machine⟩ := by
  unfold nest
  rw [if_pos hc, bind_apply, DeskM.compute_eq]
  simp only [MachineM.read, bind_apply, DeskM.find]
  generalize memo.find machine.graph.id (keyOf machine.graph settings.keyAxis args) = found
  obtain ⟨answer, memo⟩ := found
  cases answer <;> rfl

theorem perform_nest_hit (hc : settings.cache = true)
    (hp : memo.get? g.id (keyOf g settings.keyAxis args) = some p) :
    (nest settings args).perform memo g = ((.ok p, { memo with hits := memo.hits + 1 }), g) := by
  have hfind : memo.find g.id (keyOf g settings.keyAxis args) =
      (some p, { memo with hits := memo.hits + 1 }) := by rw [Memo.find, hp]
  unfold DeskM.perform
  rw [nest_eq hc, hfind]

/-- The memo after an answer was not found, but computed. -/
def kept (memo : Memo) (key : Memo.Key) : Except NestError NodeId × Graph → Memo
  | (.ok p, g) => { memo with misses := memo.misses + 1 }.save g.id key p
  | (.error _, _) => { memo with misses := memo.misses + 1 }

theorem perform_nest_miss (hc : settings.cache = true)
    (hp : memo.get? g.id (keyOf g settings.keyAxis args) = none) :
    (nest settings args).perform memo g =
      (((compute settings args g).1,
        kept memo (keyOf g settings.keyAxis args) (compute settings args g)),
        (compute settings args g).2) := by
  have hfind : memo.find g.id (keyOf g settings.keyAxis args) =
      (none, { memo with misses := memo.misses + 1 }) := by rw [Memo.find, hp]
  unfold DeskM.perform compute MachineM.perform
  simp only [nest_eq hc, hfind, bind_apply, nestDirect, DeskM.compute_eq]
  cases computeNest settings args ⟨g, 0⟩ <;> rfl

theorem grows_nestDirect (wf : g.WellFormed) (hs : args.Stored g) (memo : Memo) :
    g.Grows ((nestDirect settings args).perform memo g).2 := by
  rw [perform_nestDirect]
  exact grows_compute wf hs

theorem grows_nest (wf : g.WellFormed) (hs : args.Stored g) (memo : Memo) :
    g.Grows ((nest settings args).perform memo g).2 := by
  cases hc : settings.cache with
  | false =>
    rw [perform_nest_off hc]
    exact grows_nestDirect wf hs memo
  | true =>
    cases hp : memo.get? g.id (keyOf g settings.keyAxis args) with
    | some p =>
      rw [perform_nest_hit hc hp]
      exact .refl wf
    | none =>
      rw [perform_nest_miss hc hp]
      exact grows_compute wf hs

theorem stored_nestDirect (wf : g.WellFormed) (hs : args.Stored g)
    (hp : ((nestDirect settings args).perform memo g).1.1 = .ok p) :
    ((nestDirect settings args).perform memo g).2.Stored p := by
  rw [perform_nestDirect] at hp ⊢
  obtain ⟨a, ha⟩ := denotes_compute wf hs hp
  exact ha.stored

/-- An answer is stored in the graph that is left, provided that all that the memo keeps on behalf
of the graph is stored in it. -/
theorem stored_nest (wf : g.WellFormed) (hs : args.Stored g)
    (hm : ∀ key p, memo.get? g.id key = some p → g.Stored p)
    (hp : ((nest settings args).perform memo g).1.1 = .ok p) :
    ((nest settings args).perform memo g).2.Stored p := by
  cases hc : settings.cache with
  | false =>
    rw [perform_nest_off hc] at hp ⊢
    exact stored_nestDirect wf hs hp
  | true =>
    cases hfound : memo.get? g.id (keyOf g settings.keyAxis args) with
    | some q =>
      rw [perform_nest_hit hc hfound] at hp ⊢
      cases hp
      exact hm _ p hfound
    | none =>
      rw [perform_nest_miss hc hfound] at hp ⊢
      obtain ⟨a, ha⟩ := denotes_compute wf hs hp
      exact ha.stored

end NockDispatch.Nest
