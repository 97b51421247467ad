import NockDispatch.Proofs.Session.About
import NockDispatch.Proofs.Session.Office
import NockDispatch.Proofs.Session.Sharing
import NockDispatch.Proofs.Text.Roundtrip

/-!
# Answers that are kept

As soon as a dispatcher with its cache on has an answer, its memo keeps it. It is found from then
on, and so nothing else is ever kept under its key; and on behalf of other graphs nothing is kept
at all. Nouns that are the same later on, however they came about, have the same ids and so the
same key. Whoever asks about them on that graph through that memo gets the answer without any
work.
-/

namespace NockDispatch

namespace Memo

variable {memo : Memo} {id other : GraphId} {key key' : Key} {p q : NodeId}

/-- The memo belongs to the graph, or to none yet and then keeps nothing. What it keeps, and who
has put it there, does not matter. -/
def OpenTo (memo : Memo) (id : GraphId) : Prop :=
  memo.owner = some id ∨ memo.owner = none ∧ memo.table.isEmpty = true

theorem OpenTo.serves (ho : memo.OpenTo id) : memo.serves id = true := by
  rcases ho with howner | ⟨howner, _⟩ <;> simp [Memo.serves, howner]

/-- The memo belongs to a graph and keeps a product under a key. -/
structure Keeps (memo : Memo) (id : GraphId) (key : Key) (p : NodeId) : Prop where
  owner : memo.owner = some id
  entry : memo.table[key]? = some p

theorem Keeps.get? (hk : memo.Keeps id key p) : memo.get? id key = some p := by
  rw [Memo.get?, if_pos (by simp [serves, hk.owner]), hk.entry]

theorem OpenTo.keeps (ho : memo.OpenTo id) (hp : memo.get? id key = some p) :
    memo.Keeps id key p := by
  rw [Memo.get?, if_pos ho.serves] at hp
  rcases ho with howner | ⟨_, hempty⟩
  · exact ⟨howner, hp⟩
  · rw [Std.HashMap.getElem?_of_isEmpty hempty] at hp
    cases hp

theorem keeps_save (hs : memo.serves id = true) : (memo.save id key p).Keeps id key p := by
  rw [save, if_pos hs]
  exact ⟨rfl, Std.HashMap.getElem?_insert_self⟩

/-- Something is kept under a key only if nothing was found there, so what is there stays. -/
theorem Keeps.save (hk : memo.Keeps id key p) (hnone : memo.get? other key' = none) :
    (memo.save other key' q).Keeps id key p := by
  unfold Memo.save
  split
  · next hserves =>
    obtain rfl : id = other := by simpa [serves, hk.owner] using hserves
    have hne : key' ≠ key := by
      rintro rfl
      rw [hk.get?] at hnone
      cases hnone
    refine ⟨rfl, ?_⟩
    rw [Std.HashMap.getElem?_insert, if_neg (by simpa using hne)]
    exact hk.entry
  · exact hk

end Memo

namespace Nest

variable {g h : Graph} {settings : Settings} {args : Args} {terms : Terms}
  {inquiry : Inquiry} {memo : Memo} {machine : Machine} {id : GraphId} {key : Memo.Key} {p : NodeId}

/-! ## What stays in a memo -/

/-- What comes of a look-up on behalf of a graph: the answer, and the memo that it leaves. -/
inductive Looked (memo : Memo) (id : GraphId) (key : Memo.Key) :
    Except NestError NodeId → Memo → Prop
  | hit {p : NodeId} : memo.get? id key = some p →
      Looked memo id key (.ok p) { memo with hits := memo.hits + 1 }
  | kept {p : NodeId} : memo.get? id key = none →
      Looked memo id key (.ok p) (Memo.save { memo with misses := memo.misses + 1 } id key p)
  | failed {e : NestError} : memo.get? id key = none →
      Looked memo id key (.error e) { memo with misses := memo.misses + 1 }

theorem looked_nest (hc : settings.cache = true) (wf : g.WellFormed) (hs : args.Stored g)
    (memo : Memo) : Looked memo g.id (keyOf g settings.keyAxis args)
      ((nest settings args).perform memo g).1.1 ((nest settings args).perform memo g).1.2 := by
  cases hfound : memo.get? g.id (keyOf g settings.keyAxis args) with
  | some p =>
    rw [perform_nest_hit hc hfound]
    exact .hit hfound
  | none =>
    rw [perform_nest_miss hc hfound]
    have hid : (compute settings args g).2.id = g.id := (grows_compute wf hs).id_eq
    generalize compute settings args g = left at hid ⊢
    obtain ⟨outcome, left⟩ := left
    cases outcome with
    | ok p =>
      have hid : left.id = g.id := hid
      simp only [kept, hid]
      exact .kept hfound
    | error e => exact .failed hfound

theorem Looked.keeps {o : GraphId} {key' : Memo.Key} {answer : Except NestError NodeId}
    {next : Memo} (hl : Looked memo o key' answer next) (hk : memo.Keeps id key p) :
    next.Keeps id key p := by
  have hmissed : Memo.Keeps { memo with misses := memo.misses + 1 } id key p :=
    ⟨hk.owner, hk.entry⟩
  cases hl with
  | hit => exact ⟨hk.owner, hk.entry⟩
  | kept hnone => exact hmissed.save hnone
  | failed => exact hmissed

theorem keeps_answer (hk : memo.Keeps id key p) (wf : g.WellFormed)
    (hids : ∀ id ∈ inquiry.ids, g.Stored id) :
    ((inquiry.answer settings).perform memo g).1.2.Keeps id key p := by
  cases hargs : inquiry.take g with
  | error e =>
    rw [Inquiry.perform_malformed hargs]
    exact hk
  | ok args =>
    rw [Inquiry.perform_fit hargs]
    split
    · cases hc : settings.cache with
      | true => exact (looked_nest hc wf (Inquiry.stored_take wf hids hargs) memo).keeps hk
      | false =>
        rw [perform_nest_off hc, perform_nestDirect]
        exact hk
    · rw [perform_nestDirect]
      exact hk

/-- A dispatcher that may look an answer up has it kept, whether it was there or not. -/
theorem keeps_answered (hc : settings.cache = true) (hfind : inquiry.mayFind = true)
    (wf : g.WellFormed) (hids : ∀ id ∈ inquiry.ids, g.Stored id)
    (hopen : memo.OpenTo g.id) (hargs : inquiry.take g = .ok args)
    (hp : ((inquiry.answer settings).perform memo g).1.1 = .ok p) :
    ((inquiry.answer settings).perform memo g).1.2.Keeps g.id (keyOf g settings.keyAxis args)
      p := by
  rw [Inquiry.perform_fit hargs, hfind, if_pos rfl] at hp ⊢
  have hlooked := looked_nest hc wf (Inquiry.stored_take wf hids hargs) memo
  generalize (nest settings args).perform memo g = left at hp hlooked ⊢
  rw [hp] at hlooked
  generalize left.1.2 = next at hlooked ⊢
  cases hlooked with
  | hit hfound =>
    obtain ⟨howner, hentry⟩ := hopen.keeps hfound
    exact ⟨howner, hentry⟩
  | kept => exact Memo.keeps_save hopen.serves

/-! ## Finding it again -/

theorem Args.Denotes.injective {args' : Args} (wf : g.WellFormed) (hd : args.Denotes g terms)
    (hd' : args'.Denotes g terms) : args = args' := by
  cases args
  cases args'
  simp only [Args.mk.injEq]
  exact ⟨hd.van.injective wf hd'.van, hd.sut.injective wf hd'.sut, hd.tel.injective wf hd'.tel,
    hd.ref.injective wf hd'.ref⟩

theorem answer_hit (hc : settings.cache = true) (hfind : inquiry.mayFind = true)
    (hargs : inquiry.take machine.graph = .ok args)
    (hp : memo.get? machine.graph.id (keyOf machine.graph settings.keyAxis args) = some p) :
    inquiry.answer settings ⟨memo, machine⟩ =
      .ok p ⟨{ memo with hits := memo.hits + 1 }, machine⟩ := by
  rw [Inquiry.answer_eq, bind_apply, Inquiry.takeArgs_eq, hargs, hfind]
  change nest settings args ⟨memo, machine⟩ = _
  rw [nest_eq hc, Memo.find, hp]

end Nest

open Nest

theorem Workspace.put_self {w : Workspace} {id : GraphId} {g : Graph} (hg : w.graph? id = some g) :
    w.put id g = w := by
  obtain ⟨hi, hget⟩ := Array.getElem?_eq_some_iff.mp hg
  subst hget
  simp only [Workspace.put, Array.setIfInBounds, hi, dif_pos, Array.set_getElem_self]

namespace Office

variable {dispatchers : Nat → Dispatcher} {o o' : Office} {reply : Reply} {m d : Nat}
  {id : GraphId} {g : Graph} {args : Args} {inquiry : Inquiry} {terms : Terms}
  {key : Memo.Key} {p : NodeId}

/-- No operation takes away what a memo keeps. -/
theorem keeps_step (hw : o.workspace.Sound) {operation : Operation}
    (h : o.step dispatchers operation = some (reply, o')) (hk : (o.memos m).Keeps id key p) :
    (o'.memos m).Keeps id key p := by
  obtain ⟨⟨reply, left⟩, hstep, hleft⟩ := Option.bind_eq_some_iff.mp h
  cases hleft
  by_cases hm : m = operation.memo dispatchers
  · subst hm
    simp only [Function.update_self]
    cases operation with
    | create =>
      cases hstep
      exact hk
    | clone source =>
      obtain ⟨g, _, hstep⟩ := Option.bind_eq_some_iff.mp hstep
      cases hstep
      exact hk
    | errand id errand =>
      obtain ⟨g, hg, hdone⟩ := Option.bind_eq_some_iff.mp hstep
      by_cases hf : errand.Fits g
      · rw [Session.step_errand hg hf] at hstep
        cases hstep
        cases errand with
        | work task => exact hk
        | ask d inquiry => exact keeps_answer hk (hw.wellFormed hg) hf.stored
      · rw [if_neg hf] at hdone
        cases hdone
  · simp only [Function.update_of_ne hm]
    exact hk

theorem keeps_after (hw : o.workspace.Sound) {operations : List Operation}
    (h : o.after dispatchers operations = some o') (hk : (o.memos m).Keeps id key p) :
    (o'.memos m).Keeps id key p := by
  induction operations generalizing o with
  | nil =>
    cases h
    exact hk
  | cons operation rest ih =>
    obtain ⟨⟨reply, next⟩, hstep, hrest⟩ := Option.bind_eq_some_iff.mp h
    exact ih (grows_step hw hstep).1 hrest (keeps_step hw hstep hk)

theorem step_ask (hg : o.workspace.graph? id = some g) (hf : inquiry.Fits g) :
    let left := (inquiry.answer (dispatchers d).settings).perform (o.memos (dispatchers d).memo) g
    o.step dispatchers (.errand id (.ask d inquiry)) = some (.checked left.1.1,
      ⟨o.workspace.put id left.2, Function.update o.memos (dispatchers d).memo left.1.2⟩) := by
  have hfits : (Errand.ask d inquiry).Fits g := hf
  rw [step, Session.step_errand (s := ⟨o.workspace, o.memos _⟩) hg hfits]
  rfl

theorem exists_graph_of_step (h : o.step dispatchers (.errand id (.ask d inquiry)) =
    some (reply, o')) : ∃ g, o.workspace.graph? id = some g ∧ inquiry.Fits g := by
  obtain ⟨_, hstep, _⟩ := Option.bind_eq_some_iff.mp h
  obtain ⟨g, hg, hdone⟩ := Option.bind_eq_some_iff.mp hstep
  by_cases hf : (Errand.ask d inquiry).Fits g
  · exact ⟨g, hg, hf⟩
  · rw [if_neg hf] at hdone
    cases hdone

/-- What was asked first is kept under its key. -/
theorem keeps_asked (hw : o.workspace.Sound) (hg : o.workspace.graph? id = some g)
    (hf : inquiry.Fits g) (hfind : inquiry.mayFind = true)
    (hargs : inquiry.take g = .ok args) (hcache : (dispatchers d).settings.cache = true)
    (hopen : (o.memos (dispatchers d).memo).OpenTo id)
    (h : o.step dispatchers (.errand id (.ask d inquiry)) = some (.checked (.ok p), o')) :
    (o'.memos (dispatchers d).memo).Keeps id (keyOf g (dispatchers d).settings.keyAxis args) p := by
  have wf := hw.wellFormed hg
  have hid := hw.named hg
  rw [step_ask hg hf] at h
  obtain ⟨hreply, rfl⟩ := Prod.mk.inj (Option.some.inj h)
  have hkeeps := keeps_answered hcache hfind wf hf.stored (hid ▸ hopen) hargs
    (Reply.checked.inj hreply)
  rw [hid] at hkeeps
  simpa only [Function.update_self] using hkeeps

/-- A cached answer is effective. Once a dispatcher with its cache on has the answer to a nest
check on a graph, through a memo that belongs to the graph or to none, whatever is in it, then after
anything else that is done the same nouns are answered with the same product. This is so for every
dispatcher with its cache on, the same memo and the same key axis, and however the nouns came about:
evaluation is not entered, nothing is stored in the graph, and the memo counts one hit and no
more. -/
theorem cache_effective {future : List Operation} {o₁ o₂ : Office} {g₂ : Graph} {d' : Nat}
    {inquiry' : Inquiry} (hw : o.workspace.Sound)
    (hopen : (o.memos (dispatchers d).memo).OpenTo id)
    (hg : o.workspace.graph? id = some g) (hfind : inquiry.mayFind = true)
    (hargs : inquiry.take g = .ok args) (hd : args.Denotes g terms)
    (hcache : (dispatchers d).settings.cache = true)
    (hfirst : o.step dispatchers (.errand id (.ask d inquiry)) = some (.checked (.ok p), o₁))
    (hfuture : o₁.after dispatchers future = some o₂)
    (hg₂ : o₂.workspace.graph? id = some g₂) (habout' : inquiry'.About g₂ terms)
    (hcache' : (dispatchers d').settings.cache = true)
    (hmemo : (dispatchers d').memo = (dispatchers d).memo)
    (haxis : (dispatchers d').settings.keyAxis = (dispatchers d).settings.keyAxis) :
    let memo := o₂.memos (dispatchers d').memo
    let counted : Memo := { memo with hits := memo.hits + 1 }
    (∀ entries, inquiry'.answer (dispatchers d').settings ⟨memo, ⟨g₂, entries⟩⟩ =
      .ok p ⟨counted, ⟨g₂, entries⟩⟩) ∧
    o₂.step dispatchers (.errand id (.ask d' inquiry')) = some (.checked (.ok p),
      ⟨o₂.workspace, Function.update o₂.memos (dispatchers d').memo counted⟩) ∧
    counted.stats = { memo.stats with hits := memo.stats.hits + 1 } := by
  intro memo counted
  obtain ⟨hw₁, hgrow₁⟩ := grows_step hw hfirst
  obtain ⟨hw₂, hgrow₂⟩ := grows_after hw₁ hfuture
  obtain ⟨_, hg', hf⟩ := exists_graph_of_step hfirst
  cases hg'.symm.trans hg
  have hkeeps : memo.Keeps id _ p :=
    hmemo ▸ keeps_after hw₁ hfuture (keeps_asked hw hg hf hfind hargs hcache hopen hfirst)
  -- The nouns of the later inquiry are found at the ids of the first one.
  obtain ⟨k, hk, hgk⟩ := (hgrow₁.trans hgrow₂) hg
  cases hk.symm.trans hg₂
  have hfit := Inquiry.fit_of_take hf hargs hd
  obtain ⟨args', hargs', hd'⟩ := habout'.take_eq_ok hfit
  obtain rfl : args' = args := hd'.injective hgk.wellFormed (hd.extend hgk.extend)
  have hfound : memo.get? g₂.id (keyOf g₂ (dispatchers d').settings.keyAxis args') = some p := by
    rw [haxis, keyOf_extend hgk.extend hd, hw₂.named hg₂]
    exact hkeeps.get?
  have hanswer : ∀ entries, inquiry'.answer (dispatchers d').settings ⟨memo, ⟨g₂, entries⟩⟩ =
      .ok p ⟨counted, ⟨g₂, entries⟩⟩ :=
    fun entries => answer_hit hcache' habout'.mayFind hargs' hfound
  have hperform : (inquiry'.answer (dispatchers d').settings).perform memo g₂ =
      ((.ok p, counted), g₂) := by rw [DeskM.perform, hanswer 0]
  refine ⟨hanswer, ?_, rfl⟩
  rw [step_ask hg₂ (habout'.fits hfit), hperform, Workspace.put_self hg₂]

theorem after_append {operations : List Operation} (h : o.after dispatchers operations = some o')
    (rest : List Operation) :
    o.after dispatchers (operations ++ rest) = o'.after dispatchers rest := by
  induction operations generalizing o with
  | nil =>
    cases h
    rfl
  | cons operation operations ih =>
    obtain ⟨⟨reply, next⟩, hstep, hrest⟩ := Option.bind_eq_some_iff.mp h
    simp [after, hstep, ih hrest]

def readAt (id : GraphId) (a : Noun) : Operation :=
  .errand id (.work (.parse (Text.Piece.textOf (Text.Piece.whole a))))

theorem exists_after_readAt (dispatchers : Nat → Dispatcher) (hw : o.workspace.Sound)
    (hg : o.workspace.graph? id = some g) (a : Noun) :
    ∃ o' : Office, o.after dispatchers [readAt id a] = some o' ∧
      o'.workspace.graph? id = some (g.put a).2 ∧ o'.memos = o.memos := by
  have hfits : Errand.Fits g (.work (.parse (Text.Piece.textOf (Text.Piece.whole a)))) := by
    exact ⟨List.forall_mem_nil _, List.forall_mem_nil _⟩
  obtain ⟨m, hstep⟩ := step_errand dispatchers hg hfits
  simp only [Errand.run, Task.run, Function.update_eq_self,
    Text.readNoun_textOf_whole (hw.wellFormed hg) a] at hstep
  refine ⟨⟨o.workspace.put id (g.put a).2, o.memos⟩, ?_, ?_, rfl⟩
  · simp [after, readAt, hstep]
  · rw [Workspace.graph?_put hg, if_pos rfl]

/-- A fit inquiry through a memo that was never used gets the answer that its nouns have. -/
theorem exists_step_ask {a : Noun} (hw : o.workspace.Sound) (hg : o.workspace.graph? id = some g)
    (habout : inquiry.About g terms) (hfit : terms.Fit)
    (hcache : (dispatchers d).settings.cache = true)
    (hmemo : o.memos (dispatchers d).memo = .empty)
    (hverdict : terms.verdict (dispatchers d).settings.limits (dispatchers d).settings.nestArm =
      .ok a) :
    ∃ p o', o.step dispatchers (.errand id (.ask d inquiry)) = some (.checked (.ok p), o') := by
  obtain ⟨args, hargs, hd⟩ := habout.take_eq_ok hfit
  have hmeans : Means (compute (dispatchers d).settings args g) (.ok a) := by
    rw [← hverdict]
    exact means_compute (hw.wellFormed hg) hd
  obtain ⟨p, hp⟩ := hmeans.eq_ok
  have hanswer : ((inquiry.answer (dispatchers d).settings).perform
      (o.memos (dispatchers d).memo) g).1.1 = .ok p := by
    rw [hmemo, Inquiry.perform_fit hargs, habout.mayFind, if_pos rfl,
      perform_nest_miss hcache (Memo.get?_empty _ _), hp]
  simp only [step_ask hg (habout.fits hfit), hanswer]
  exact ⟨p, _, rfl⟩

/-- A gate is read and asked about, and then the same around another battery. -/
theorem cache_effective_otherBattery :
    let dispatchers : Nat → Dispatcher := fun _ => ⟨⟨true, 4, Axis.whole, ⟨100, 100⟩⟩, 0⟩
    ∃ o o₁ o₂ o₃ gate gate' p,
      empty.after dispatchers [.create, readAt ⟨0⟩ (twoArms.gate (.atom 1))] = some o ∧
      o.step dispatchers (.errand ⟨0⟩ (.ask 0 (.call gate))) = some (.checked (.ok p), o₁) ∧
      o₁.after dispatchers [readAt ⟨0⟩ (twoArms.gate (.atom 2))] = some o₂ ∧ gate' ≠ gate ∧
      o₂.step dispatchers (.errand ⟨0⟩ (.ask 1 (.call gate'))) = some (.checked (.ok p), o₃) := by
  intro dispatchers
  obtain ⟨o₀, hcreate, hempty, hunused⟩ : ∃ o₀, empty.after dispatchers [.create] = some o₀ ∧
      o₀.workspace.graph? ⟨0⟩ = some (.empty ⟨0⟩) ∧ o₀.memos 0 = .empty := ⟨_, rfl, rfl, rfl⟩
  have hw₀ := (grows_after NockDispatch.sound_empty hcreate).1
  obtain ⟨o, hread, hg, hmemos⟩ :=
    exists_after_readAt dispatchers hw₀ hempty (twoArms.gate (.atom 1))
  have hw := (grows_after hw₀ hread).1
  have hpast := (after_append hcreate [readAt ⟨0⟩ (twoArms.gate (.atom 1))]).trans hread
  obtain ⟨-, hgate⟩ := Graph.grows_put (Graph.wellFormed_empty ⟨0⟩) (twoArms.gate (.atom 1))
  generalize ((Graph.empty ⟨0⟩).put (twoArms.gate (.atom 1))).1 = gate at hgate
  have hmemo : o.memos 0 = .empty := hmemos ▸ hunused
  have habout : (Inquiry.call gate).About _ twoArms := .call hgate rfl
  obtain ⟨args, hargs, hd⟩ := habout.take_eq_ok twoArms_fit
  obtain ⟨p, o₁, hask⟩ : ∃ p o₁, o.step dispatchers (.errand ⟨0⟩ (.ask 0 (.call gate))) =
      some (.checked (.ok p), o₁) :=
    exists_step_ask hw hg habout twoArms_fit rfl hmemo verdict_first
  obtain ⟨hw₁, hgrow⟩ := grows_step hw hask
  obtain ⟨g₁, hg₁, hgrow₁⟩ := hgrow hg
  obtain ⟨o₂, hfuture, hg₂, -⟩ := exists_after_readAt dispatchers hw₁ hg₁ (twoArms.gate (.atom 2))
  obtain ⟨hgrow₂, hgate'⟩ := Graph.grows_put hgrow₁.wellFormed (twoArms.gate (.atom 2))
  generalize (g₁.put (twoArms.gate (.atom 2))).1 = gate' at hgate'
  have hopen : (o.memos 0).OpenTo ⟨0⟩ := by
    rw [hmemo]
    exact .inr ⟨rfl, Std.HashMap.isEmpty_empty⟩
  have hagain : o₂.step dispatchers (.errand ⟨0⟩ (.ask 1 (.call gate'))) = _ :=
    (cache_effective hw hopen hg rfl hargs hd rfl hask hfuture hg₂ (.call hgate' rfl) rfl rfl
      rfl).2.1
  refine ⟨o, o₁, o₂, _, gate, gate', p, hpast, hask, hfuture, fun heq => ?_, hagain⟩
  rw [heq] at hgate'
  cases hgate'.functional (hgate.extend (hgrow₁.trans hgrow₂).extend)

end Office
end NockDispatch
