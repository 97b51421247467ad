import NockDispatch.Proofs.Session.History

/-!
# What a memo keeps

The graphs of a workspace grow, and no graph ever goes away. Something that is true of every
entry of a memo, in the graph that owns the memo, and that stays true when this graph grows, is
true of every entry after any errand, provided that it is true of each answer that is computed.
-/

namespace NockDispatch

open Nest

/-! ## Growing workspaces -/

/-- Every graph is still there, and has only grown. -/
def Workspace.Grows (w v : Workspace) : Prop :=
  ∀ ⦃id g⦄, w.graph? id = some g → ∃ h, v.graph? id = some h ∧ g.Grows h

namespace Workspace

variable {u v w : Workspace} {id : GraphId} {g : Graph}

theorem Sound.grows_refl (hw : w.Sound) : w.Grows w := fun _ g hg =>
  ⟨g, hg, .refl (hw.wellFormed hg)⟩

theorem Grows.trans (huv : u.Grows v) (hvw : v.Grows w) : u.Grows w := by
  intro id g hg
  obtain ⟨h, hh, hgh⟩ := huv hg
  obtain ⟨k, hk, hhk⟩ := hvw hh
  exact ⟨k, hk, hgh.trans hhk⟩

theorem Sound.grows_put (hw : w.Sound) (hg : w.graph? id = some g) {h : Graph}
    (hgh : g.Grows h) : w.Grows (w.put id h) := by
  intro other k hk
  rw [w.graph?_put hg]
  by_cases heq : other = id
  · subst heq
    rw [if_pos rfl]
    cases hg.symm.trans hk
    exact ⟨h, rfl, hgh⟩
  · rw [if_neg heq]
    exact hw.grows_refl hk

theorem Sound.grows_push (hw : w.Sound) (h : Graph) : w.Grows ⟨w.graphs.push h⟩ := fun _ k hk =>
  ⟨k, graph?_push hk h, .refl (hw.wellFormed hk)⟩

end Workspace

/-! ## Entries of a memo -/

/-- Every entry of the memo is good in the graph that owns the memo. -/
def Kept (good : Graph → Memo.Key → NodeId → Prop) (w : Workspace) (memo : Memo) : Prop :=
  ∀ ⦃key : Memo.Key⦄ ⦃p : NodeId⦄, memo.table[key]? = some p →
    ∃ o g, memo.owner = some o ∧ w.graph? o = some g ∧ good g key p

/-- What is good stays good when the graph grows. -/
def Lasting (good : Graph → Memo.Key → NodeId → Prop) : Prop :=
  ∀ ⦃g h key p⦄, g.Grows h → good g key p → good h key p

variable {good : Graph → Memo.Key → NodeId → Prop} {w v : Workspace} {memo : Memo} {id : GraphId}
  {g : Graph} {key : Memo.Key} {p : NodeId} {settings : Settings} {args : Args}
  {inquiry : Inquiry}

theorem kept_empty (good : Graph → Memo.Key → NodeId → Prop) (w : Workspace) :
    Kept good w .empty := by
  intro key p hp
  simp [Memo.empty] at hp

theorem Kept.get? (hk : Kept good w memo) (hw : w.Sound) (hg : w.graph? id = some g)
    (hp : memo.get? g.id key = some p) : good g key p := by
  unfold Memo.get? at hp
  split at hp
  · next hserves =>
    obtain ⟨o, k, ho, hk, hgood⟩ := hk hp
    have howner : o = g.id := by simpa [Memo.serves, ho] using hserves
    rw [howner, hw.named hg, hg] at hk
    cases hk
    exact hgood
  · cases hp

theorem Kept.grow (hk : Kept good w memo) (hl : Lasting good) (hwv : w.Grows v) :
    Kept good v memo := by
  intro key p hp
  obtain ⟨o, g, ho, hg, hgood⟩ := hk hp
  obtain ⟨h, hh, hgh⟩ := hwv hg
  exact ⟨o, h, ho, hh, hl hgh hgood⟩

theorem Kept.save (hk : Kept good w memo) (hg : w.graph? id = some g) (hgood : good g key p) :
    Kept good w (memo.save id key p) := by
  unfold Memo.save
  split
  · next hserves =>
    intro other q hq
    simp only [Std.HashMap.getElem?_insert] at hq
    split at hq
    · next heq =>
      obtain rfl := eq_of_beq heq
      cases hq
      exact ⟨id, g, rfl, hg, hgood⟩
    · obtain ⟨o, k, ho, hk, hgood'⟩ := hk hq
      have howner : o = id := by simpa [Memo.serves, ho] using hserves
      exact ⟨id, k, rfl, howner ▸ hk, hgood'⟩
  · exact hk

/-! ## One errand -/

/-- Each answer that a dispatcher computes is good under its key. -/
def Earned (good : Graph → Memo.Key → NodeId → Prop) (settings : Settings) : Prop :=
  ∀ ⦃g args p⦄, g.WellFormed → Args.Stored g args → (compute settings args g).1 = .ok p →
    good (compute settings args g).2 (keyOf g settings.keyAxis args) p

theorem Kept.nest (hk : Kept good w memo) (hl : Lasting good) (he : Earned good settings)
    (hw : w.Sound) (hg : w.graph? id = some g) (hs : args.Stored g) :
    Kept good (w.put id ((Nest.nest settings args).perform memo g).2)
      ((Nest.nest settings args).perform memo g).1.2 := by
  have wf := hw.wellFormed hg
  have hgrow : g.Grows (compute settings args g).2 := grows_compute wf hs
  have hkept : Kept good (w.put id (compute settings args g).2) memo :=
    hk.grow hl (hw.grows_put hg hgrow)
  cases hc : settings.cache with
  | false =>
    rw [perform_nest_off hc, perform_nestDirect]
    exact hkept
  | true =>
    cases hp : memo.get? g.id (keyOf g settings.keyAxis args) with
    | some p =>
      rw [perform_nest_hit hc hp]
      exact hk.grow hl (hw.grows_put hg (.refl wf))
    | none =>
      rw [perform_nest_miss hc hp]
      have hput : (w.put id (compute settings args g).2).graph? id =
          some (compute settings args g).2 := by rw [w.graph?_put hg, if_pos rfl]
      have hid : (compute settings args g).2.id = id := by rw [hgrow.id_eq, hw.named hg]
      have hgood : ∀ p, (compute settings args g).1 = .ok p →
          good (compute settings args g).2 (keyOf g settings.keyAxis args) p :=
        fun p hp => he wf hs hp
      generalize compute settings args g = left at hkept hput hid hgood ⊢
      obtain ⟨outcome, left⟩ := left
      cases outcome with
      | ok p =>
        have hid : left.id = id := hid
        have hmissed : Kept good (w.put id left) { memo with misses := memo.misses + 1 } := hkept
        simp only [kept, hid]
        exact hmissed.save hput (hgood p rfl)
      | error e => exact hkept

theorem Kept.answer (hk : Kept good w memo) (hl : Lasting good) (he : Earned good settings)
    (hw : w.Sound) (hg : w.graph? id = some g) (hids : ∀ id ∈ inquiry.ids, g.Stored id) :
    Kept good (w.put id ((inquiry.answer settings).perform memo g).2)
      ((inquiry.answer settings).perform memo g).1.2 := by
  have wf := hw.wellFormed hg
  cases hargs : inquiry.take g with
  | error e =>
    rw [Inquiry.perform_malformed hargs]
    exact hk.grow hl (hw.grows_put hg (.refl wf))
  | ok args =>
    have hs := Inquiry.stored_take wf hids hargs
    rw [Inquiry.perform_fit hargs]
    split
    · exact hk.nest hl he hw hg hs
    · rw [perform_nestDirect]
      exact hk.grow hl (hw.grows_put hg (grows_compute wf hs))

theorem Kept.run {dispatchers : Nat → Settings} (hk : Kept good w memo) (hl : Lasting good)
    (he : ∀ d, Earned good (dispatchers d)) (hw : w.Sound) (hg : w.graph? id = some g)
    {errand : Errand} (hf : errand.Fits g) :
    Kept good (w.put id (errand.run dispatchers memo g).2)
      (errand.run dispatchers memo g).1.2 := by
  cases errand with
  | work task =>
    exact hk.grow hl (hw.grows_put hg (task.grows_run (hw.wellFormed hg) hf.stored))
  | ask d inquiry => exact hk.answer hl (he d) hw hg hf.stored

end NockDispatch
