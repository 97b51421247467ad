import Mathlib.Data.Finset.Card
import Mathlib.Data.List.Induction
import NockDispatch.Proofs.Session.Keeping

/-!
# A memo is a map that is bound to one graph

What a memo finds and counts is fixed by what it was asked before. The first graph on behalf of
which something is saved owns it. Of all that is saved on behalf of the owner the latest product
of a key is found, and nothing is found or saved on behalf of any other graph. Graphs only grow, so
what is found still holds the noun that it held when it was saved.
-/

namespace NockDispatch

namespace Memo

/-! ## What a memo was asked for -/

inductive Use where
  | find (key : Key)
  | save (key : Key) (product : NodeId)

/-- What a memo was asked for, the first time first, each time on behalf of a graph as it was
then. -/
abbrev Past := List (Graph × Use)

def use (m : Memo) (g : Graph) : Use → Memo
  | .find key => (m.find g.id key).2
  | .save key product => m.save g.id key product

def answer (m : Memo) (g : Graph) : Use → List (Option NodeId)
  | .find key => [(m.find g.id key).1]
  | .save _ _ => []

def after (past : Past) : Memo := past.foldl (fun m x => m.use x.1 x.2) empty

def answersFrom (m : Memo) : Past → List (Option NodeId)
  | [] => []
  | (g, asked) :: rest => m.answer g asked ++ (m.use g asked).answersFrom rest

def finds : Past → Nat
  | [] => 0
  | (_, .find _) :: rest => finds rest + 1
  | (_, .save _ _) :: rest => finds rest

/-- The graph on behalf of which something is saved first. -/
def ownerOf : Past → Option GraphId
  | [] => none
  | (_, .find _) :: rest => ownerOf rest
  | (g, .save _ _) :: _ => some g.id

/-- What is saved on behalf of a graph, the first one first. -/
def savedOn (id : GraphId) : Past → List (Key × NodeId)
  | [] => []
  | (_, .find _) :: rest => savedOn id rest
  | (g, .save key product) :: rest =>
    if g.id = id then (key, product) :: savedOn id rest else savedOn id rest

/-- What is saved on behalf of the owner, the last one first. -/
def kept (past : Past) : List (Key × NodeId) :=
  match ownerOf past with
  | none => []
  | some id => (savedOn id past).reverse

variable {past more : Past} {g : Graph} {id : GraphId} {key other : Key} {p : NodeId} {m : Memo}

theorem after_append (past : Past) (g : Graph) (asked : Use) :
    after (past ++ [(g, asked)]) = (after past).use g asked := by
  simp [after]

theorem answersFrom_append (m : Memo) (past : Past) (g : Graph) (asked : Use) :
    m.answersFrom (past ++ [(g, asked)]) =
      m.answersFrom past ++ (past.foldl (fun m x => m.use x.1 x.2) m).answer g asked := by
  induction past generalizing m with
  | nil => simp [answersFrom]
  | cons x past ih =>
    obtain ⟨h, first⟩ := x
    simp only [List.cons_append, answersFrom, ih, List.append_assoc, List.foldl_cons]

theorem finds_append (past more : Past) : finds (past ++ more) = finds past + finds more := by
  induction past with
  | nil => simp [finds]
  | cons x past ih =>
    obtain ⟨h, _ | _⟩ := x
    · simp only [List.cons_append, finds, ih]
      omega
    · exact ih

theorem ownerOf_append (past more : Past) :
    ownerOf (past ++ more) = (ownerOf past).or (ownerOf more) := by
  induction past with
  | nil => rfl
  | cons x past ih =>
    obtain ⟨h, _ | _⟩ := x
    · exact ih
    · rfl

theorem savedOn_append (id : GraphId) (past more : Past) :
    savedOn id (past ++ more) = savedOn id past ++ savedOn id more := by
  induction past with
  | nil => rfl
  | cons x past ih =>
    obtain ⟨h, _ | _⟩ := x
    · exact ih
    · by_cases hid : h.id = id
      · simp only [List.cons_append, savedOn, if_pos hid, ih]
      · simp only [List.cons_append, savedOn, if_neg hid, ih]

theorem savedOn_eq_nil (h : ownerOf past = none) (id : GraphId) : savedOn id past = [] := by
  induction past with
  | nil => rfl
  | cons x past ih =>
    obtain ⟨g, _ | _⟩ := x
    · exact ih h
    · cases h

theorem mem_savedOn (h : (key, p) ∈ savedOn id past) :
    ∃ g, (g, .save key p) ∈ past ∧ g.id = id := by
  induction past with
  | nil => cases h
  | cons x past ih =>
    have hrest : (key, p) ∈ savedOn id past → ∃ g, (g, .save key p) ∈ x :: past ∧ g.id = id := by
      intro hmem
      obtain ⟨g, hg, hid⟩ := ih hmem
      exact ⟨g, List.mem_cons_of_mem x hg, hid⟩
    obtain ⟨g, _ | _⟩ := x
    · exact hrest h
    · rw [savedOn] at h
      split at h
      · next hid =>
        rcases List.mem_cons.mp h with heq | h
        · cases heq
          exact ⟨g, List.mem_cons_self, hid⟩
        · exact hrest h
      · exact hrest h

theorem kept_find (past : Past) (g : Graph) (key : Key) :
    kept (past ++ [(g, .find key)]) = kept past := by
  have howner : ownerOf (past ++ [(g, .find key)]) = ownerOf past := by
    rw [ownerOf_append]
    exact Option.or_none
  unfold kept
  rw [howner]
  cases ownerOf past with
  | none => rfl
  | some id =>
    dsimp only
    rw [savedOn_append]
    simp [savedOn]

theorem kept_save (key : Key) (p : NodeId) (howner : ∀ o, ownerOf past = some o → o = g.id) :
    ownerOf (past ++ [(g, .save key p)]) = some g.id ∧
      kept (past ++ [(g, .save key p)]) = (key, p) :: kept past := by
  have hlast : ownerOf (past ++ [(g, .save key p)]) = some g.id := by
    rw [ownerOf_append]
    cases h : ownerOf past with
    | none => rfl
    | some o => rw [howner o h]; rfl
  refine ⟨hlast, ?_⟩
  have hbefore : kept past = (savedOn g.id past).reverse := by
    unfold kept
    cases h : ownerOf past with
    | none => rw [savedOn_eq_nil h]; rfl
    | some o => rw [howner o h]
  rw [hbefore, kept, hlast]
  simp [savedOn_append, savedOn]

theorem kept_foreign {o : GraphId} (key : Key) (p : NodeId) (h : ownerOf past = some o)
    (hne : o ≠ g.id) :
    ownerOf (past ++ [(g, .save key p)]) = some o ∧
      kept (past ++ [(g, .save key p)]) = kept past := by
  have hlast : ownerOf (past ++ [(g, .save key p)]) = some o := by
    rw [ownerOf_append, h]
    rfl
  refine ⟨hlast, ?_⟩
  rw [kept, hlast, kept, h]
  simp [savedOn_append, savedOn, hne.symm]

/-! ## What a memo holds -/

theorem serves_iff (m : Memo) (id : GraphId) :
    m.serves id = true ↔ ∀ o, m.owner = some o → o = id := by
  unfold serves
  cases m.owner with
  | none => simp
  | some o => simp

theorem find_keeps (m : Memo) (id : GraphId) (key : Key) :
    (m.find id key).2.owner = m.owner ∧ (m.find id key).2.table = m.table ∧
      (m.find id key).2.stores = m.stores := by
  unfold find
  split <;> exact ⟨rfl, rfl, rfl⟩

theorem find_counts (m : Memo) (id : GraphId) (key : Key) :
    (m.find id key).2.hits = m.hits + [(m.find id key).1].countP (·.isSome) ∧
      (m.find id key).2.hits + (m.find id key).2.misses = m.hits + m.misses + 1 := by
  unfold find
  split
  · exact ⟨rfl, Nat.succ_add _ _⟩
  · exact ⟨rfl, rfl⟩

/-- A memo holds and counts what it should after all that it was asked for. -/
structure Reflects (m : Memo) (past : Past) : Prop where
  owner : m.owner = ownerOf past
  table : ∀ key, m.table[key]? = (kept past).lookup key
  entries : m.table.size = ((kept past).map Prod.fst).toFinset.card
  stores : m.stores = (kept past).length
  hits : m.hits = (empty.answersFrom past).countP (·.isSome)
  asked : m.hits + m.misses = finds past

theorem reflects_empty : Reflects empty [] :=
  ⟨rfl, fun key => by simp [empty, kept, ownerOf], rfl, rfl, rfl, rfl⟩

theorem Reflects.find (h : Reflects (after past) past) (g : Graph) (key : Key) :
    Reflects (after (past ++ [(g, .find key)])) (past ++ [(g, .find key)]) := by
  have hafter : after (past ++ [(g, .find key)]) = ((after past).find g.id key).2 :=
    after_append _ _ _
  have howner : ownerOf (past ++ [(g, .find key)]) = ownerOf past := by
    rw [ownerOf_append]
    exact Option.or_none
  have hanswers : empty.answersFrom (past ++ [(g, .find key)]) =
      empty.answersFrom past ++ [((after past).find g.id key).1] := answersFrom_append _ _ _ _
  have hfinds : finds (past ++ [(g, .find key)]) = finds past + 1 := finds_append _ _
  obtain ⟨hsame, htable, hstores⟩ := find_keeps (after past) g.id key
  obtain ⟨hhits, hasked⟩ := find_counts (after past) g.id key
  rw [hafter]
  refine ⟨?_, ?_, ?_, ?_, ?_, ?_⟩
  · rw [hsame, howner, h.owner]
  · rw [htable, kept_find]
    exact h.table
  · rw [htable, kept_find]
    exact h.entries
  · rw [hstores, kept_find]
    exact h.stores
  · rw [hhits, hanswers, List.countP_append, h.hits]
  · rw [hasked, hfinds, h.asked]

theorem Reflects.mem_table (h : Reflects m past) (key : Key) :
    key ∈ m.table ↔ key ∈ ((kept past).map Prod.fst).toFinset := by
  rw [← Std.HashMap.isSome_getElem?_iff_mem, h.table, List.lookup_isSome_iff, List.mem_toFinset]
  simp only [beq_iff_eq, List.mem_map]
  exact exists_congr fun x => and_congr_right fun _ => eq_comm

theorem Reflects.save (h : Reflects (after past) past) (g : Graph) (key : Key) (p : NodeId) :
    Reflects (after (past ++ [(g, .save key p)])) (past ++ [(g, .save key p)]) := by
  have hafter : after (past ++ [(g, .save key p)]) = (after past).save g.id key p :=
    after_append _ _ _
  have hanswers : empty.answersFrom (past ++ [(g, .save key p)]) = empty.answersFrom past := by
    rw [answersFrom_append]
    exact List.append_nil _
  have hfinds : finds (past ++ [(g, .save key p)]) = finds past := finds_append _ _
  rw [hafter, Memo.save]
  by_cases hserves : (after past).serves g.id = true
  · obtain ⟨howner, hkept⟩ := kept_save key p fun o ho =>
      (serves_iff _ _).mp hserves o (h.owner.trans ho)
    rw [if_pos hserves]
    refine ⟨howner.symm, fun other => ?_, ?_, ?_, hanswers ▸ h.hits, hfinds ▸ h.asked⟩
    · rw [hkept, List.lookup_cons, Std.HashMap.getElem?_insert, h.table]
      by_cases heq : key = other
      · simp [heq]
      · rw [beq_false_of_ne heq, beq_false_of_ne (Ne.symm heq)]
        rfl
    · rw [hkept, List.map_cons, List.toFinset_cons, Std.HashMap.size_insert]
      by_cases hmem : key ∈ (after past).table
      · rw [if_pos hmem, Finset.insert_eq_of_mem ((h.mem_table key).mp hmem), h.entries]
      · rw [if_neg hmem, Finset.card_insert_of_notMem (mt (h.mem_table key).mpr hmem), h.entries]
    · rw [hkept, List.length_cons, ← h.stores]
  · rw [if_neg hserves]
    obtain ⟨o, ho, hne⟩ : ∃ o, (after past).owner = some o ∧ o ≠ g.id := by
      simpa [serves_iff] using hserves
    obtain ⟨howner, hkept⟩ := kept_foreign key p (h.owner ▸ ho) hne
    refine ⟨howner ▸ ho, ?_, ?_, ?_, hanswers ▸ h.hits, hfinds ▸ h.asked⟩
    · rw [hkept]
      exact h.table
    · rw [hkept]
      exact h.entries
    · rw [hkept]
      exact h.stores

theorem reflects_after (past : Past) : Reflects (after past) past := by
  induction past using List.reverseRecOn with
  | nil => exact reflects_empty
  | append_singleton past x ih =>
    obtain ⟨g, key | ⟨key, p⟩⟩ := x
    · exact ih.find g key
    · exact ih.save g key p

theorem find_eq_get? (m : Memo) (id : GraphId) (key : Key) : (m.find id key).1 = m.get? id key := by
  unfold find
  split <;> simp_all

/-- The owner finds what is kept, and no other graph finds anything. -/
theorem Reflects.find_eq (h : Reflects m past) (id : GraphId) (key : Key) :
    (m.find id key).1 = if ownerOf past = some id then (kept past).lookup key else none := by
  rw [find_eq_get?, get?, h.table]
  by_cases howner : ownerOf past = some id
  · rw [if_pos howner, if_pos ((serves_iff m id).mpr fun o ho => ?_)]
    rw [h.owner, howner] at ho
    exact (Option.some.inj ho).symm
  · rw [if_neg howner]
    split
    · next hserves =>
      -- A memo without an owner serves the graph too, but then nothing is kept.
      have hnone : ownerOf past = none := by
        cases ho : ownerOf past with
        | none => rfl
        | some o =>
          rw [(serves_iff m id).mp hserves o (h.owner.trans ho)] at ho
          exact absurd ho howner
      simp [kept, hnone]
    · rfl

/-! ## Graphs that grow -/

/-- What a memo was asked for while a workspace came to be what it is. In between, graphs may grow,
and new graphs and copies may be added. -/
inductive Lived : Past → Workspace → Prop
  | start {w : Workspace} : w.Sound → Lived [] w
  | grow {past : Past} {w v : Workspace} : Lived past w → w.Grows v → v.Sound → Lived past v
  | use {past : Past} {w : Workspace} {id : GraphId} {g : Graph} (asked : Use) :
      Lived past w → w.graph? id = some g → Lived (past ++ [(g, asked)]) w

variable {w : Workspace}

theorem Lived.sound (h : Lived past w) : w.Sound := by
  induction h with
  | start hw => exact hw
  | grow _ _ hv => exact hv
  | use _ _ _ ih => exact ih

theorem Lived.put {h : Graph} (hl : Lived past w) (hg : w.graph? id = some g) (hgrow : g.Grows h) :
    Lived past (w.put id h) :=
  hl.grow (hl.sound.grows_put hg hgrow) (hl.sound.put hg hgrow)

theorem Lived.create (hl : Lived past w) : Lived past w.create.2 :=
  hl.grow (hl.sound.grows_push _) hl.sound.create

theorem Lived.clone (hl : Lived past w) (hg : w.graph? id = some g) : Lived past (w.clone g).2 :=
  hl.grow (hl.sound.grows_push _) (hl.sound.clone (hl.sound.wellFormed hg))

/-- A graph on behalf of which a memo was asked has only grown since. -/
theorem Lived.exists_grows (h : Lived past w) {before : Graph} {asked : Use}
    (hmem : (before, asked) ∈ past) : ∃ g, w.graph? before.id = some g ∧ before.Grows g := by
  induction h with
  | start _ => cases hmem
  | grow _ hgrow _ ih =>
    obtain ⟨g, hg, hbefore⟩ := ih hmem
    obtain ⟨g', hg', hlater⟩ := hgrow hg
    exact ⟨g', hg', hbefore.trans hlater⟩
  | use _ hpast hg ih =>
    rcases List.mem_append.mp hmem with hmem | hlast
    · exact ih hmem
    · obtain ⟨rfl, -⟩ := Prod.mk.inj (List.mem_singleton.mp hlast)
      have hw := hpast.sound
      exact ⟨_, (hw.named hg).symm ▸ hg, .refl (hw.wellFormed hg)⟩

/-- A memo refines a map that is bound to one graph. Its owner is the graph that saved first. On
behalf of the owner the latest product that the owner saved under the key is found, and on behalf
of any other graph nothing is found and nothing saved. What is found was saved on behalf of the
same graph, and still denotes what it denoted then. The counts are those of what the memo was
asked for. -/
theorem Lived.refines_map (h : Lived past w) (hg : w.graph? id = some g) (key : Key) :
    let m := after past
    m.owner = ownerOf past ∧
    (m.find g.id key).1 = (if ownerOf past = some g.id then (kept past).lookup key else none) ∧
    (m.find g.id key).2.owner = m.owner ∧ (m.find g.id key).2.table = m.table ∧
    (∀ o, ownerOf past = some o → o ≠ g.id → ∀ p, m.save g.id key p = m) ∧
    (∀ p, (m.find g.id key).1 = some p → ∃ before, (before, .save key p) ∈ past ∧
      before.id = g.id ∧ before.Grows g ∧ ∀ a, before.Denotes p a → g.Denotes p a) ∧
    m.stats.hits + m.stats.misses = finds past ∧
    m.stats.hits = (empty.answersFrom past).countP (·.isSome) ∧
    m.stats.stores = (kept past).length ∧
    m.stats.entries = ((kept past).map Prod.fst).toFinset.card := by
  intro m
  have hm : Reflects m past := reflects_after past
  obtain ⟨howner, htable, -⟩ := find_keeps m g.id key
  refine ⟨hm.owner, hm.find_eq g.id key, howner, htable, ?_, ?_, hm.asked, hm.hits, hm.stores,
    hm.entries⟩
  · intro o ho hne p
    have hserves : ¬ m.serves g.id = true := fun hserves =>
      hne ((serves_iff m g.id).mp hserves o (hm.owner.trans ho))
    rw [Memo.save, if_neg hserves]
  · intro p hp
    rw [hm.find_eq] at hp
    split at hp
    · next hself =>
      have hmem : (key, p) ∈ savedOn g.id past := by
        obtain ⟨later, earlier, hkept, -⟩ := List.lookup_eq_some_iff.mp hp
        rw [kept, hself] at hkept
        have hmem : (key, p) ∈ (savedOn g.id past).reverse := by simp [hkept]
        exact List.mem_reverse.mp hmem
      obtain ⟨before, hbefore, hid⟩ := mem_savedOn hmem
      obtain ⟨g', hg', hgrow⟩ := h.exists_grows hbefore
      rw [hid, h.sound.named hg, hg] at hg'
      cases hg'
      exact ⟨before, hbefore, hid, hgrow, fun a hd => hd.extend hgrow.extend⟩
    · cases hp

/-- A product is saved on behalf of a graph, of which a copy is made, and which grows. It is found
on behalf of the graph, and holds the same noun, and it is not found on behalf of the copy. -/
theorem refines_map_copied :
    let source := (Graph.empty ⟨0⟩).put (.atom 5)
    let key : Key := ⟨nestOperation, source.1, source.1, source.1, source.1⟩
    let grown := source.2.put (.atom 6)
    let copy : Graph := { source.2 with id := ⟨1⟩ }
    let m := after [(source.2, .save key source.1)]
    (m.find grown.2.id key).1 = some source.1 ∧ grown.2.Denotes source.1 (.atom 5) ∧
      (m.find copy.id key).1 = none ∧ m.stats.stores = 1 := by
  intro source key grown copy m
  obtain ⟨hgrow, hd⟩ := Graph.grows_put (Graph.wellFormed_empty ⟨0⟩) (.atom 5)
  obtain ⟨hgrow', -⟩ := Graph.grows_put hgrow.wellFormed (.atom 6)
  have hnew : Workspace.empty.create.2.graph? ⟨0⟩ = some (.empty ⟨0⟩) := rfl
  have hput := (Lived.start sound_empty).create.put hnew hgrow
  have hsource : (Workspace.empty.create.2.put ⟨0⟩ source.2).graph? ⟨0⟩ = some source.2 := by
    rw [Workspace.graph?_put hnew, if_pos rfl]
  have hsave : Lived [(source.2, .save key source.1)] _ := hput.use _ hsource
  have hfirst := Workspace.graph?_push hsource copy
  have hlived := (hsave.clone hsource).put hfirst hgrow'
  have hgrown := Workspace.graph?_put hfirst grown.2 ⟨0⟩
  have hcopy := Workspace.graph?_put hfirst grown.2 ⟨1⟩
  rw [if_pos rfl] at hgrown
  rw [if_neg (by simp)] at hcopy
  have hid : source.2.id = ⟨0⟩ := hgrow.id_eq
  have hid' : grown.2.id = ⟨0⟩ := hgrow'.id_eq.trans hid
  have hkept : kept [(source.2, .save key source.1)] = [(key, source.1)] := by
    simp [kept, ownerOf, savedOn]
  obtain ⟨-, hfound, -, -, -, hsaved, -, -, hstores, -⟩ := hlived.refines_map hgrown key
  obtain ⟨-, hforeign, -⟩ := hlived.refines_map (hcopy.trans rfl) key
  have hp : (m.find grown.2.id key).1 = some source.1 := by
    rw [hfound, hid', hkept, ownerOf, hid]
    simp
  refine ⟨hp, ?_, ?_, ?_⟩
  · obtain ⟨before, hbefore, -, -, hkeeps⟩ := hsaved source.1 hp
    obtain ⟨rfl, -⟩ := Prod.mk.inj (List.mem_singleton.mp hbefore)
    exact hkeeps _ hd
  · refine hforeign.trans (if_neg ?_)
    rw [ownerOf, hid]
    exact fun h => nomatch h
  · rw [hstores, hkept]
    rfl

end Memo
end NockDispatch
