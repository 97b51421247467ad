import NockDispatch.Proofs.Graph.Growth
import NockDispatch.Text.Reader

/-!
# What reading does to a graph

Whether a text is a noun or not, reading it only stores more nodes, and all ids that the
reader holds on to or gives out are stored.
-/

namespace NockDispatch.Text

namespace Reader

/-- All elements of the open brackets are stored. -/
def Held (g : Graph) (brackets : Open) : Prop :=
  ∀ elements ∈ brackets, ∀ id ∈ elements, g.Stored id

def Progress.Stored (g : Graph) : Progress → Prop
  | .complete id => g.Stored id
  | .within brackets => Held g brackets

variable {g h : Graph}

theorem Held.grow {brackets : Open} (hh : Held g brackets) (hgh : g.Grows h) :
    Held h brackets :=
  fun elements he id hid => hgh.stored (hh elements he id hid)

theorem stored_deliver {brackets : Open} (hh : Held g brackets) {id : NodeId}
    (hid : g.Stored id) : (deliver brackets id).Stored g := by
  cases brackets with
  | nil => exact hid
  | cons elements outer =>
    intro list hlist
    rcases List.mem_cons.mp hlist with rfl | hlist
    · intro other hother
      rcases List.mem_cons.mp hother with rfl | hother
      · exact hid
      · exact hh elements (by simp) other hother
    · exact hh list (by simp [hlist])

theorem grows_nest (wf : g.WellFormed) {last : NodeId} (hlast : g.Stored last)
    {before : List NodeId} (hbefore : ∀ id ∈ before, g.Stored id) :
    g.Grows (nest g last before).2 ∧ (nest g last before).2.Stored (nest g last before).1 := by
  induction before generalizing g last with
  | nil => exact ⟨.refl wf, hlast⟩
  | cons element before ih =>
    have helement : g.Stored element := hbefore element (by simp)
    have hcell : g.Grows (g.cell element last).2 := Graph.grows_intern wf ⟨helement, hlast⟩
    have hrest := ih hcell.wellFormed (Graph.stored_intern wf _) fun id hid =>
      hcell.stored (hbefore id (by simp [hid]))
    exact ⟨hcell.trans hrest.1, hrest.2⟩

theorem grows_step (wf : g.WellFormed) {brackets : Open} (hh : Held g brackets) (token : Token) :
    g.Grows (step g brackets token).2 ∧
      ∀ progress, (step g brackets token).1 = .ok progress →
        progress.Stored (step g brackets token).2 := by
  have hatom : ∀ value, g.Grows (g.atom value).2 ∧
      (deliver brackets (g.atom value).1).Stored (g.atom value).2 := by
    intro value
    have hgrow : g.Grows (g.atom value).2 := Graph.grows_intern wf trivial
    exact ⟨hgrow, stored_deliver (hh.grow hgrow) (Graph.stored_intern wf _)⟩
  cases token with
  | opening =>
    refine ⟨.refl wf, fun progress hp => ?_⟩
    cases hp
    intro elements he
    rcases List.mem_cons.mp he with rfl | he
    · simp
    · exact hh elements he
  | closing =>
    rcases brackets with _ | ⟨_ | ⟨last, _ | ⟨second, before⟩⟩, outer⟩
    · exact ⟨.refl wf, fun progress hp => by cases hp⟩
    · exact ⟨.refl wf, fun progress hp => by cases hp⟩
    · exact ⟨.refl wf, fun progress hp => by cases hp⟩
    · have hmem := hh (last :: second :: before) (by simp)
      have hbefore : ∀ id ∈ second :: before, g.Stored id := fun id hid =>
        hmem id (List.mem_cons_of_mem last hid)
      have hnest := grows_nest wf (hmem last (by simp)) hbefore
      refine ⟨hnest.1, fun progress hp => ?_⟩
      cases hp
      have houter : Held g outer := fun elements he => hh elements (by simp [he])
      exact stored_deliver (houter.grow hnest.1) hnest.2
  | atom word =>
    simp only [step]
    cases literal? word with
    | none => exact ⟨.refl wf, fun progress hp => by cases hp⟩
    | some value => exact ⟨(hatom value).1, fun progress hp => by cases hp; exact (hatom value).2⟩
  | term word => exact ⟨(hatom _).1, fun progress hp => by cases hp; exact (hatom _).2⟩

theorem grows_readWithin (wf : g.WellFormed) {brackets : Open} (hh : Held g brackets)
    (tokens : List Token) :
    g.Grows (readWithin g brackets tokens).graph ∧
      ∀ id, (readWithin g brackets tokens).outcome = .ok id →
        (readWithin g brackets tokens).graph.Stored id := by
  induction tokens generalizing g brackets with
  | nil => exact ⟨.refl wf, fun id hid => by cases hid⟩
  | cons token rest ih =>
    obtain ⟨hgrow, hprogress⟩ := grows_step wf hh token
    unfold readWithin
    split
    · next brackets' g' hstep =>
      rw [hstep] at hgrow hprogress
      obtain ⟨hrest, hid⟩ := ih hgrow.wellFormed (hprogress _ rfl)
      exact ⟨hgrow.trans hrest, hid⟩
    · next id g' hstep =>
      rw [hstep] at hgrow hprogress
      refine ⟨hgrow, fun other hother => ?_⟩
      cases hother
      exact hprogress _ rfl
    · next e g' hstep =>
      rw [hstep] at hgrow
      exact ⟨hgrow, fun id hid => by cases hid⟩

/-! ## Reading again -/

theorem nest_again (wf : g.WellFormed) (wf' : h.WellFormed) {last : NodeId}
    (hlast : g.Stored last) {before : List NodeId} (hbefore : ∀ id ∈ before, g.Stored id)
    (hext : (nest g last before).2.Extends h) :
    nest h last before = ((nest g last before).1, h) := by
  induction before generalizing g last with
  | nil => rfl
  | cons element before ih =>
    have hcell : g.Grows (g.cell element last).2 :=
      Graph.grows_intern wf ⟨hbefore element (by simp), hlast⟩
    have hstored := Graph.stored_intern wf (.cell element last)
    have hrest : ∀ id ∈ before, (g.cell element last).2.Stored id := fun id hid =>
      hcell.stored (hbefore id (by simp [hid]))
    have hfirst : (g.cell element last).2.Extends h :=
      (grows_nest hcell.wellFormed hstored hrest).1.extend.trans hext
    have hagain : h.cell element last = ((g.cell element last).1, h) :=
      Graph.intern_again wf wf' hfirst
    simp only [nest, hagain]
    exact ih hcell.wellFormed hstored hrest hext

theorem step_again (wf : g.WellFormed) (wf' : h.WellFormed) {brackets : Open}
    (hh : Held g brackets) (token : Token) (hext : (step g brackets token).2.Extends h) :
    step h brackets token = ((step g brackets token).1, h) := by
  have hatom : ∀ value, (g.atom value).2.Extends h → h.atom value = ((g.atom value).1, h) :=
    fun value hext => Graph.intern_again wf wf' hext
  cases token with
  | opening => rfl
  | closing =>
    rcases brackets with _ | ⟨_ | ⟨last, _ | ⟨second, before⟩⟩, outer⟩
    · rfl
    · rfl
    · rfl
    · have hmem := hh (last :: second :: before) (by simp)
      have hbefore : ∀ id ∈ second :: before, g.Stored id := fun id hid =>
        hmem id (List.mem_cons_of_mem last hid)
      simp only [step, nest_again wf wf' (hmem last (by simp)) hbefore hext]
  | atom word =>
    simp only [step] at hext ⊢
    cases hvalue : literal? word with
    | none => rfl
    | some value =>
      rw [hvalue] at hext
      simp only [hatom value hext]
  | term word => simp only [step, Graph.cord, hatom _ hext]

theorem readWithin_again (wf : g.WellFormed) (wf' : h.WellFormed) {brackets : Open}
    (hh : Held g brackets) {tokens : List Token}
    (hext : (readWithin g brackets tokens).graph.Extends h) :
    readWithin h brackets tokens = { readWithin g brackets tokens with graph := h } := by
  induction tokens generalizing g brackets with
  | nil => rfl
  | cons token rest ih =>
    obtain ⟨hgrow, hprogress⟩ := grows_step wf hh token
    have hagain := step_again wf wf' hh token
    unfold readWithin at hext ⊢
    generalize step g brackets token = left at *
    obtain ⟨progress | progress, g'⟩ := left
    · rw [hagain hext]
    · cases progress with
      | complete id => rw [hagain hext]
      | within brackets' =>
        have hheld := hprogress _ rfl
        have hrest := (grows_readWithin hgrow.wellFormed hheld rest).1
        rw [hagain (hrest.extend.trans hext)]
        exact ih hgrow.wellFormed hheld hext

theorem grows_read (wf : g.WellFormed) (tokens : List Token) :
    g.Grows (read g tokens).graph ∧
      ∀ id, (read g tokens).outcome = .ok id → (read g tokens).graph.Stored id :=
  grows_readWithin wf (by simp [Held]) tokens

theorem read_again (wf : g.WellFormed) (wf' : h.WellFormed) (tokens : List Token)
    (hext : (read g tokens).graph.Extends h) :
    read h tokens = { read g tokens with graph := h } :=
  readWithin_again wf wf' (by simp [Held]) hext

end Reader

variable {g h : Graph}

theorem grows_readNoun (wf : g.WellFormed) (text : String) :
    g.Grows (readNoun g text).2 ∧
      ∀ id, (readNoun g text).1 = .ok id → (readNoun g text).2.Stored id := by
  obtain ⟨hgrow, hid⟩ := Reader.grows_read wf (tokens text)
  unfold readNoun
  generalize Reader.read g (tokens text) = reading at hgrow hid ⊢
  obtain ⟨outcome, rest, graph⟩ := reading
  cases outcome with
  | ok id => cases rest with
    | nil => exact ⟨hgrow, hid⟩
    | cons token rest => exact ⟨hgrow, fun other hother => by cases hother⟩
  | error e => exact ⟨hgrow, fun other hother => by cases hother⟩

/-- Reading a text again gives the same noun or error and stores nothing. -/
theorem readNoun_again (wf : g.WellFormed) (wf' : h.WellFormed) {text : String}
    (hext : (readNoun g text).2.Extends h) : readNoun h text = ((readNoun g text).1, h) := by
  have hagain := Reader.read_again wf wf' (tokens text)
  unfold readNoun at hext ⊢
  generalize Reader.read g (tokens text) = reading at *
  obtain ⟨outcome, rest, graph⟩ := reading
  cases outcome with
  | error e => rw [hagain hext]
  | ok id => cases rest with
    | nil => rw [hagain hext]
    | cons token rest => rw [hagain hext]

end NockDispatch.Text
