import NockDispatch.Proofs.Session.Keeping

/-!
# The cache is invisible

Dispatchers that key their answers on the whole of `van` and agree on the nest arm and the
limits answer alike with the cache on and off, and leave the same graphs. The invariant is
that every kept answer belongs to the graph that owns the memo and would be computed again
there without storing anything, however that graph has grown.
-/

namespace NockDispatch

open Nest

/-- Every kept answer is given again by the graph that owns the memo. -/
def Backed (settings : Settings) (w : Workspace) (memo : Memo) : Prop :=
  ∀ ⦃key : Memo.Key⦄ ⦃p : NodeId⦄, memo.table[key]? = some p →
    ∃ o g, memo.owner = some o ∧ w.graph? o = some g ∧ Answered settings g (keyArgs key) p

variable {settings : Settings} {w : Workspace} {memo : Memo} {id : GraphId} {g h : Graph}
  {key : Memo.Key} {p : NodeId}

theorem backed_empty (settings : Settings) (w : Workspace) : Backed settings w .empty :=
  kept_empty _ w

theorem lasting_answered (settings : Settings) :
    Lasting fun g key p => Answered settings g (keyArgs key) p :=
  fun _ _ _ _ hgh ha => ha.extend hgh.extend

theorem earned_answered (hk : settings.keyAxis = Axis.whole) :
    Earned (fun g key p => Answered settings g (keyArgs key) p) settings := by
  intro g args p wf hs hp
  rw [hk, keyArgs_keyOf_whole]
  exact answered_compute wf hs hp

theorem Backed.answered (hb : Backed settings w memo) (hw : w.Sound) (hg : w.graph? id = some g)
    (hp : memo.get? g.id key = some p) : Answered settings g (keyArgs key) p :=
  Kept.get? hb hw hg hp

theorem Backed.push (hb : Backed settings w memo) (hw : w.Sound) (h : Graph) :
    Backed settings ⟨w.graphs.push h⟩ memo :=
  Kept.grow hb (lasting_answered settings) (hw.grows_push h)

/-! ## One operation -/

/-- The cached settings and the plain ones compute the same answers. -/
structure Pairs (cached plain : Settings) : Prop where
  cached_on : cached.cache = true
  plain_off : plain.cache = false
  keyAxis : cached.keyAxis = Axis.whole
  nestArm : plain.nestArm = cached.nestArm
  limits : plain.limits = cached.limits

variable {cached plain : Settings} {args : Args} {inquiry : Inquiry} {memo' : Memo}

theorem Pairs.compute (hs : Pairs cached plain) (args : Args) (g : Graph) :
    compute plain args g = compute cached args g := by
  unfold Nest.compute computeNest
  rw [hs.nestArm, hs.limits]

theorem Pairs.nest (hs : Pairs cached plain) (hb : Backed cached w memo) (hw : w.Sound)
    (hg : w.graph? id = some g) :
    ((Nest.nest plain args).perform memo' g).1.1 = ((Nest.nest cached args).perform memo g).1.1 ∧
      ((Nest.nest plain args).perform memo' g).2 = ((Nest.nest cached args).perform memo g).2 := by
  rw [perform_nest_off hs.plain_off, perform_nestDirect, hs.compute]
  cases hp : memo.get? g.id (keyOf g cached.keyAxis args) with
  | some p =>
    have ha := hb.answered hw hg hp
    rw [hs.keyAxis, keyArgs_keyOf_whole] at ha
    rw [perform_nest_hit hs.cached_on hp, ha g (hw.wellFormed hg) (.refl g)]
    exact ⟨rfl, rfl⟩
  | none =>
    rw [perform_nest_miss hs.cached_on hp]
    exact ⟨rfl, rfl⟩

theorem Pairs.answer (hs : Pairs cached plain) (hb : Backed cached w memo) (hw : w.Sound)
    (hg : w.graph? id = some g) (inquiry : Inquiry) (memo' : Memo) :
    ((inquiry.answer plain).perform memo' g).1.1 = ((inquiry.answer cached).perform memo g).1.1 ∧
      ((inquiry.answer plain).perform memo' g).2 =
        ((inquiry.answer cached).perform memo g).2 := by
  cases hargs : inquiry.take g with
  | error e =>
    rw [Inquiry.perform_malformed hargs, Inquiry.perform_malformed hargs]
    exact ⟨rfl, rfl⟩
  | ok args =>
    rw [Inquiry.perform_fit hargs, Inquiry.perform_fit hargs]
    cases inquiry.mayFind with
    | true => exact hs.nest hb hw hg
    | false =>
      simp only [Bool.false_eq_true, if_false, perform_nestDirect, hs.compute]
      exact ⟨trivial, trivial⟩

theorem Pairs.run {cached plain : Nat → Settings} {settings : Settings}
    (hc : ∀ d, cached d = settings) (hs : ∀ d, Pairs settings (plain d))
    (hb : Backed settings w memo) (hw : w.Sound) (hg : w.graph? id = some g) {errand : Errand}
    (hf : errand.Fits g) (memo' : Memo) :
    (errand.run plain memo' g).1.1 = (errand.run cached memo g).1.1 ∧
      (errand.run plain memo' g).2 = (errand.run cached memo g).2 ∧
      Backed settings (w.put id (errand.run cached memo g).2) (errand.run cached memo g).1.2 := by
  have hearned : ∀ d, Earned (fun g key p => Answered settings g (keyArgs key) p) (cached d) := by
    intro d
    rw [hc]
    exact earned_answered (hs d).keyAxis
  have hkept := Kept.run hb (lasting_answered settings) hearned hw hg hf
  cases errand with
  | work task => exact ⟨rfl, rfl, hkept⟩
  | ask d inquiry =>
    obtain ⟨hanswer, hgraph⟩ := (hs d).answer hb hw hg inquiry memo'
    simp only [Errand.run, hc] at hkept ⊢
    exact ⟨by rw [hanswer], hgraph, hkept⟩

/-! ## Whole histories -/

section

variable {cached plain : Nat → Settings} {settings : Settings}
  (hc : ∀ d, cached d = settings) (hs : ∀ d, Pairs settings (plain d))
include hc hs

/-- An operation that can be done in one session can be done in the other; it answers alike
there, and the invariant stays. -/
theorem Pairs.step (hb : Backed settings w memo) (hw : w.Sound) (memo' : Memo)
    (operation : Operation) :
    (∃ reply w' next next', Session.step cached ⟨w, memo⟩ operation = some (reply, ⟨w', next⟩) ∧
      Session.step plain ⟨w, memo'⟩ operation = some (reply, ⟨w', next'⟩) ∧
      w'.Sound ∧ Backed settings w' next) ∨
    (Session.step cached ⟨w, memo⟩ operation = none ∧
      Session.step plain ⟨w, memo'⟩ operation = none) := by
  cases operation with
  | create => exact .inl ⟨_, _, _, _, rfl, rfl, hw.create, hb.push hw _⟩
  | clone source =>
    cases hg : w.graph? source with
    | none => exact .inr ⟨by simp [Session.step, hg], by simp [Session.step, hg]⟩
    | some g =>
      refine .inl ⟨.graph (w.clone g).1, (w.clone g).2, memo, memo', ?_, ?_,
        hw.clone (hw.wellFormed hg), hb.push hw _⟩
      · simp [Session.step, hg]
      · simp [Session.step, hg]
  | errand id errand =>
    cases hg : w.graph? id with
    | none => exact .inr ⟨by simp [Session.step, hg], by simp [Session.step, hg]⟩
    | some g =>
      by_cases hf : errand.Fits g
      · obtain ⟨hreply, hgraph, hb'⟩ := Pairs.run hc hs hb hw hg hf memo'
        have hgrow := errand.grows_run (hw.wellFormed hg) hf cached memo
        refine .inl ⟨(errand.run cached memo g).1.1, w.put id (errand.run cached memo g).2,
          (errand.run cached memo g).1.2, (errand.run plain memo' g).1.2, ?_, ?_,
          hw.put hg hgrow, hb'⟩
        · simp [Session.step, hg, hf, Workspace.run_eq hg]
        · simp [Session.step, hg, hf, Workspace.run_eq hg, hreply, hgraph]
      · exact .inr ⟨by simp [Session.step, hg, hf], by simp [Session.step, hg, hf]⟩

theorem Pairs.transcript (hb : Backed settings w memo) (hw : w.Sound)
    (history : List Operation) :
    Session.transcript cached ⟨w, memo⟩ history = Session.transcript plain ⟨w, memo'⟩ history := by
  induction history generalizing w memo memo' with
  | nil => rfl
  | cons operation rest ih =>
    unfold Session.transcript
    rcases Pairs.step hc hs hb hw memo' operation with
      ⟨reply, w', next, next', hstep, hstep', hw', hb'⟩ | ⟨hstep, hstep'⟩
    · rw [hstep, hstep']
      simp only [Option.bind_eq_bind, Option.bind_some]
      rw [ih hb' hw']
    · rw [hstep, hstep']
      simp only [Option.bind_eq_bind, Option.bind_none]

end

/-- A shared memo changes no answer and no graph. -/
theorem cache_invisible (hw : w.Sound) (arm : UInt64) (limits : Limits)
    {cached plain : Nat → Settings} (hc : ∀ d, cached d = ⟨true, arm, Axis.whole, limits⟩)
    (hp : ∀ d, ∃ keyAxis, plain d = ⟨false, arm, keyAxis, limits⟩) (memo : Memo)
    (history : List Operation) :
    Session.transcript cached ⟨w, .empty⟩ history = Session.transcript plain ⟨w, memo⟩ history := by
  have hs : ∀ d, Pairs ⟨true, arm, Axis.whole, limits⟩ (plain d) := by
    intro d
    obtain ⟨keyAxis, hd⟩ := hp d
    rw [hd]
    exact ⟨rfl, rfl, rfl, rfl, rfl⟩
  exact Pairs.transcript hc hs (backed_empty _ w) hw history

/-- One nest check is asked for on a graph, again on its clone, and again on the graph. -/
def askedThrice : List Operation :=
  let check := Inquiry.nest ⟨⟨15⟩, ⟨13⟩, ⟨3⟩, ⟨13⟩⟩
  [.create, .errand ⟨0⟩ (.work (.parse "[[[1 [1 5] [0 0] 0] [1 [1 6] [0 0] 0]] 7 0]")),
    .errand ⟨0⟩ (.ask 0 check), .clone ⟨0⟩, .errand ⟨1⟩ (.ask 1 check), .errand ⟨0⟩ (.ask 1 check)]

theorem cache_invisible_askedThrice :
    Session.transcript (fun _ => ⟨true, 4, Axis.whole, ⟨100, 100⟩⟩) ⟨.empty, .empty⟩ askedThrice =
      Session.transcript (fun _ => ⟨false, 4, 2, ⟨100, 100⟩⟩) ⟨.empty, .empty⟩ askedThrice :=
  cache_invisible sound_empty 4 ⟨100, 100⟩ (fun _ => rfl) (fun _ => ⟨2, rfl⟩) .empty askedThrice

end NockDispatch
