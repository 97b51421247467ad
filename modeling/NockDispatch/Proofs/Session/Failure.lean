import NockDispatch.Proofs.Session.Accounting

/-!
# Requests that fail

A request can fail before it is looked up, when its nouns are taken, or after that, when its core
is built or run. Nodes may be stored by then, and the memo has been asked once. Nothing of this
changes what an id denotes or what a memo finds.
-/

namespace NockDispatch

namespace Memo

/-- The memos keep the same products on behalf of the same graph, whatever they have counted. -/
structure Alike (m m' : Memo) : Prop where
  owner : m.owner = m'.owner
  table : m.table = m'.table

variable {m m' : Memo}

theorem Alike.serves (h : m.Alike m') (id : GraphId) : m.serves id = m'.serves id := by
  rw [Memo.serves, Memo.serves, h.owner]

theorem Alike.get? (h : m.Alike m') (id : GraphId) (key : Key) :
    m.get? id key = m'.get? id key := by
  rw [Memo.get?, Memo.get?, h.serves, h.table]

theorem Alike.use (h : m.Alike m') (g : Graph) (asked : Use) :
    (m.use g asked).Alike (m'.use g asked) := by
  cases asked with
  | find key =>
    obtain ⟨howner, htable, -⟩ := find_keeps m g.id key
    obtain ⟨howner', htable', -⟩ := find_keeps m' g.id key
    exact ⟨howner.trans (h.owner.trans howner'.symm), htable.trans (h.table.trans htable'.symm)⟩
  | save key product =>
    simp only [Memo.use, Memo.save, h.serves]
    split
    · exact ⟨rfl, congrArg (·.insert key product) h.table⟩
    · exact h

theorem Alike.answer (h : m.Alike m') (g : Graph) (asked : Use) :
    m.answer g asked = m'.answer g asked := by
  cases asked with
  | find key => simp only [Memo.answer, find_eq_get?, h.get?]
  | save key product => rfl

theorem Alike.answersFrom (h : m.Alike m') (later : Past) :
    m.answersFrom later = m'.answersFrom later := by
  induction later generalizing m m' with
  | nil => rfl
  | cons x later ih =>
    obtain ⟨g, asked⟩ := x
    simp only [Memo.answersFrom, h.answer, ih (h.use g asked)]

end Memo

namespace Nest

/-- What a dispatcher can be asked for on a graph: by a gate of the graph or by four nouns of it. -/
inductive EntryPoint (settings : Settings) (g : Graph) : DeskM NodeId → Prop
  | call {gate} : g.Stored gate → EntryPoint settings g (call settings gate)
  | callDirect {gate} : g.Stored gate → EntryPoint settings g (callDirect settings gate)
  | nest {args : Args} : args.Stored g → EntryPoint settings g (nest settings args)
  | nestDirect {args : Args} : args.Stored g → EntryPoint settings g (nestDirect settings args)

/-- What a request that fails leaves as it was. -/
structure Intact (before : Desk) (error : NestError) (after : Desk) : Prop where
  owner : after.memo.owner = before.memo.owner
  table : after.memo.table = before.memo.table
  hits : after.memo.hits = before.memo.hits
  stores : after.memo.stores = before.memo.stores
  /-- The answer was looked up once, or not at all. -/
  misses : after.memo.misses = before.memo.misses ∨ after.memo.misses = before.memo.misses + 1
  wellFormed : after.machine.graph.WellFormed
  kept : ∀ ⦃id a⦄, before.machine.graph.Denotes id a → after.machine.graph.Denotes id a
  /-- Whatever the memo is asked for from then on, on behalf of any graphs, it finds the same. -/
  answers : ∀ later : Memo.Past, after.memo.answersFrom later = before.memo.answersFrom later
  /-- A request that is no nest call leaves everything, down to the counts. -/
  malformed : ∀ e, error = .malformed e → after = before

variable {g : Graph} {settings : Settings} {args : Args} {memo : Memo} {e : NestError} {desk : Desk}
  {entries : Nat}

theorem Intact.refl (wf : g.WellFormed) (e : NestError) :
    Intact ⟨memo, ⟨g, entries⟩⟩ e ⟨memo, ⟨g, entries⟩⟩ :=
  ⟨rfl, rfl, rfl, rfl, .inl rfl, wf, fun _ _ hd => hd, fun _ => rfl, fun _ _ => rfl⟩

/-- A check fails for evaluation alone. -/
theorem compute_ne_malformed (wf : g.WellFormed) (hs : args.Stored g) (c : CallError) :
    (compute settings args g).1 ≠ .error (.malformed c) := by
  intro hc
  have hexplains := courseOf_explains wf hs settings
  obtain ⟨hfit, habsent⟩ := courseOf_ne settings args g
  rw [hc] at hexplains
  cases hcourse : courseOf settings args g with
  | malformed => exact hfit hcourse
  | found => exact habsent hcourse
  | unbuilt | failed | computed =>
    rw [hcourse] at hexplains
    obtain ⟨_, h⟩ := hexplains
    cases h

theorem nestDirect_fails (wf : g.WellFormed) (hs : args.Stored g)
    (h : nestDirect settings args ⟨memo, ⟨g, entries⟩⟩ = .error e desk) :
    desk.memo = memo ∧ g.Grows desk.machine.graph ∧ ∀ c, e ≠ .malformed c := by
  obtain ⟨terms, hd⟩ := hs.exists_denotes wf
  have hgrow : g.Grows (compute settings args g).2 := grows_compute wf hs
  have hne : ∀ c, (compute settings args g).1 ≠ .error (.malformed c) := compute_ne_malformed wf hs
  rw [nestDirect, DeskM.compute_eq, computeNest_eq wf hd] at h
  generalize compute settings args g = left at h hgrow hne
  obtain ⟨_ | _, g'⟩ := left
  · cases h
    exact ⟨rfl, hgrow, fun c hc => hne c (congrArg _ hc)⟩
  · cases h

/-- The memo was left alone, or has missed once, and the failure was one of evaluation. -/
theorem intact_of_grows (hmemo : desk.memo = memo ∨
      desk.memo = { memo with misses := memo.misses + 1 })
    (hgrow : g.Grows desk.machine.graph) (hne : ∀ c, e ≠ .malformed c) :
    Intact ⟨memo, ⟨g, entries⟩⟩ e desk := by
  obtain ⟨memo', machine⟩ := desk
  have halike : memo'.Alike memo := by
    rcases hmemo with rfl | rfl <;> exact ⟨rfl, rfl⟩
  constructor
  case owner => exact halike.owner
  case table => exact halike.table
  case hits => rcases hmemo with rfl | rfl <;> rfl
  case stores => rcases hmemo with rfl | rfl <;> rfl
  case misses => exact hmemo.imp (congrArg Memo.misses) (congrArg Memo.misses)
  case wellFormed => exact hgrow.wellFormed
  case kept => exact fun _ _ hd => hd.extend hgrow.extend
  case answers => exact halike.answersFrom
  case malformed => exact fun c hc => absurd hc (hne c)

theorem nestDirect_intact (wf : g.WellFormed) (hs : args.Stored g)
    (h : nestDirect settings args ⟨memo, ⟨g, entries⟩⟩ = .error e desk) :
    Intact ⟨memo, ⟨g, entries⟩⟩ e desk := by
  obtain ⟨hmemo, hgrow, hne⟩ := nestDirect_fails wf hs h
  exact intact_of_grows (.inl hmemo) hgrow hne

theorem nest_intact (wf : g.WellFormed) (hs : args.Stored g)
    (h : nest settings args ⟨memo, ⟨g, entries⟩⟩ = .error e desk) :
    Intact ⟨memo, ⟨g, entries⟩⟩ e desk := by
  cases hc : settings.cache with
  | false =>
    rw [nest, hc] at h
    exact nestDirect_intact wf hs h
  | true =>
    simp only [nest_eq hc, Memo.find] at h
    cases hfound : memo.get? g.id (keyOf g settings.keyAxis args) with
    | some p => simp [hfound] at h
    | none =>
      simp only [hfound, bind_apply] at h
      generalize hmissed : { memo with misses := memo.misses + 1 } = memo' at h
      cases hrun : nestDirect settings args ⟨memo', ⟨g, entries⟩⟩ with
      | ok p desk' =>
        rw [hrun] at h
        cases h
      | error e' desk' =>
        rw [hrun] at h
        cases h
        obtain ⟨hmemo, hgrow, hne⟩ := nestDirect_fails wf hs hrun
        exact intact_of_grows (.inr (hmemo.trans hmissed.symm)) hgrow hne

/-- Where the nouns of a gate are taken first, a failure is that of taking them, or one of what is
done with them. -/
theorem takeArgs_intact (wf : g.WellFormed) {gate : NodeId} (hgate : g.Stored gate)
    {answer : Args → DeskM NodeId}
    (hanswer : ∀ args, args.Stored g → answer args ⟨memo, ⟨g, entries⟩⟩ = .error e desk →
      Intact ⟨memo, ⟨g, entries⟩⟩ e desk)
    (h : (do answer (← takeArgs (Args.ofGate · gate)) : DeskM NodeId) ⟨memo, ⟨g, entries⟩⟩ =
      .error e desk) : Intact ⟨memo, ⟨g, entries⟩⟩ e desk := by
  rw [bind_apply, Inquiry.takeArgs_eq] at h
  cases htake : Args.ofGate g gate with
  | ok args =>
    simp only [htake] at h
    exact hanswer args (Args.stored_ofGate wf hgate htake) h
  | error c =>
    simp only [htake] at h
    cases h
    exact .refl wf _

/-- A request that fails has changed nothing, except that there may be new nodes and one miss. -/
theorem intact_of_error (wf : g.WellFormed) {act : DeskM NodeId}
    (hact : EntryPoint settings g act) (h : act ⟨memo, ⟨g, entries⟩⟩ = .error e desk) :
    Intact ⟨memo, ⟨g, entries⟩⟩ e desk := by
  cases hact with
  | call hgate => exact takeArgs_intact wf hgate (fun _ hs => nest_intact wf hs) h
  | callDirect hgate => exact takeArgs_intact wf hgate (fun _ hs => nestDirect_intact wf hs) h
  | nest hs => exact nest_intact wf hs h
  | nestDirect hs => exact nestDirect_intact wf hs h

/-- A core whose arm at axis 2 gives a gate that runs into slot 0, and the rest of a check. -/
def Terms.crashing : Terms :=
  let gate := Noun.triple (.cell (.atom 0) (.atom 0)) (.cell (.atom 0) (.atom 0)) (.atom 0)
  ⟨.triple (.cell (.atom 1) gate) (.atom 7) (.atom 0), .atom 8, .atom 0, .atom 9⟩

/-- The core is built and stored, the memo has missed, and then the battery crashes. -/
theorem intact_of_error_crashing :
    let placed := Terms.crashing.place (.empty ⟨0⟩)
    let settings := { Settings.standard with limits := ⟨10, 10⟩ }
    ∃ desk, nest settings placed.1 ⟨.empty, ⟨placed.2, 0⟩⟩ =
        .error (.interpreter (.missingAxis 0)) desk ∧
      desk.memo.owner = none ∧ desk.memo.stores = 0 ∧
      desk.machine.graph.Denotes placed.1.van Terms.crashing.van ∧
      ∀ later, desk.memo.answersFrom later = Memo.empty.answersFrom later := by
  intro placed settings
  obtain ⟨hgrow, hd⟩ := Terms.crashing.grows_place (Graph.wellFormed_empty ⟨0⟩)
  have hanswer : Terms.crashing.answer ⟨10, 10⟩ Axis.battery = .error (.missingAxis 0) := by rfl
  have hmeans : Means (compute settings placed.1 placed.2) _ := means_compute hgrow.wellFormed hd
  rw [Terms.verdict_eq] at hmeans
  have hcompute : (compute settings placed.1 placed.2).1 = .error (.interpreter (.missingAxis 0)) :=
    hmeans.error_iff.mpr (congrArg (Except.mapError NestError.interpreter) hanswer)
  have hanswered : ((nest settings placed.1).perform .empty placed.2).1.1 =
      .error (.interpreter (.missingAxis 0)) := by
    rw [perform_nest_miss rfl (Memo.get?_empty _ _), hcompute]
  unfold DeskM.perform at hanswered
  cases hrun : nest settings placed.1 ⟨.empty, ⟨placed.2, 0⟩⟩ with
  | ok p desk =>
    rw [hrun] at hanswered
    cases hanswered
  | error e desk =>
    rw [hrun] at hanswered
    cases hanswered
    have hintact := intact_of_error hgrow.wellFormed (.nest hd.stored) hrun
    exact ⟨desk, rfl, hintact.owner, hintact.stores, hintact.kept hd.van, hintact.answers⟩

end Nest
end NockDispatch
