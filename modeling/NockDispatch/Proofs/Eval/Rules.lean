import NockDispatch.Proofs.Eval.Simulation

/-!
# Rules on ids follow rules on nouns

Every rule that is applied to the ids of a subject and a formula does what its counterpart
does to their nouns, provided that nested evaluations do. By recursion on the budget this
holds of evaluation as a whole.
-/

namespace NockDispatch

def Noun.loobean? : Noun → Option Bool
  | .atom 0 => some true
  | .atom 1 => some false
  | _ => none

theorem Graph.Denotes.loobean? {g : Graph} {id : NodeId} {a : Noun} (hd : g.Denotes id a) :
    g.loobean? id = a.loobean? := by
  cases a with
  | atom n =>
    rw [Graph.loobean?, hd.atom?_atom]
    rcases n with _ | _ | n <;> rfl
  | cell b c =>
    rw [Graph.loobean?, hd.atom?_cell]
    rfl

inductive Outcome.Denotes (g : Graph) : Outcome → Noun.Outcome → Prop
  | product {id a} : g.Denotes id a → Denotes g (.product id) (.product a)
  | tail {s f a b} : g.Denotes s a → g.Denotes f b → Denotes g (.tail s f) (.tail a b)

/-- Nested evaluations of ids follow those of nouns, from any graph on. -/
def NestedFollows (start : Run) (nested : Rule.Nested) (nested' : Noun.Nested) : Prop :=
  ∀ ⦃g s f a b⦄, g.Denotes s a → g.Denotes f b →
    Follows start.ties g Graph.Denotes (nested s f) (nested' a b)

namespace Rule

variable {start : Run} {g : Graph} {rel : Graph → α → β → Prop}

theorem follows_pair (op : Opcode) {id : NodeId} {a b : Noun} (hd : g.Denotes id (.cell a b))
    {next : NodeId × NodeId → EvalM α} {model : LedgerM β}
    (hn : ∀ head tail, g.Denotes head a → g.Denotes tail b →
      Follows start.ties g rel (next (head, tail)) model) :
    Follows start.ties g rel (pair op id >>= next) model := by
  obtain ⟨head, tail, hnode, ha, hb⟩ := hd.exists_cell
  refine .look (fun run hg _ => ?_) (hn head tail ha hb)
  have hcell : run.graph.cell? id = some (head, tail) := by simp [Graph.cell?, hg hnode]
  simp [pair, EvalM.read, hcell, Bind.bind, EStateM.bind, Pure.pure, EStateM.pure]

theorem follows_pair_atom (op : Opcode) {id : NodeId} {n : Nat} (hd : g.Denotes id (.atom n))
    {next : NodeId × NodeId → EvalM α} :
    Follows start.ties g rel (pair op id >>= next) (throw (.badArguments op)) := by
  refine .fail fun run hg => ?_
  have hcell := (hd.extend hg).cell?_atom
  simp only [pair, EvalM.read, Bind.bind, EStateM.bind, hcell]
  rfl

theorem follows_axis (op : Opcode) {id : NodeId} {n : Nat} (hd : g.Denotes id (.atom n))
    {next : Nat → EvalM α} {model : LedgerM β} (hn : Follows start.ties g rel (next n) model) :
    Follows start.ties g rel (axis op id >>= next) model := by
  refine .look (fun run hg _ => ?_) hn
  have hatom := (hd.extend hg).atom?_atom
  simp [axis, EvalM.read, hatom, Bind.bind, EStateM.bind, Pure.pure, EStateM.pure]

theorem follows_axis_cell (op : Opcode) {id : NodeId} {a b : Noun}
    (hd : g.Denotes id (.cell a b)) {next : Nat → EvalM α} :
    Follows start.ties g rel (axis op id >>= next) (throw (.badArguments op)) := by
  refine .fail fun run hg => ?_
  have hatom := (hd.extend hg).atom?_cell
  simp only [axis, EvalM.read, Bind.bind, EStateM.bind, hatom]
  rfl

theorem follows_product {save : Graph → NodeId × Graph} {p : Noun}
    (hs : ∀ h, g.Extends h → h.WellFormed → save h = h.put p) :
    Follows start.ties g Outcome.Denotes (return .product (← EvalM.store save)) (Noun.produce p) :=
  (Follows.store hs).bind fun _ _ _ _ hd => .pure fun _ hext => .product (hd.extend hext)

theorem follows_answer {yes : Bool} :
    Follows start.ties g Outcome.Denotes (answer yes) (Noun.produce (Noun.loobean yes)) :=
  follows_product fun _ _ _ => rfl

theorem follows_present {root : NodeId} {a : Noun} (n : Nat) (hd : g.Denotes root a)
    {next : NodeId → EvalM α} {next' : Noun → LedgerM β}
    (hn : ∀ id b, g.Denotes id b → Follows start.ties g rel (next id) (next' b)) :
    Follows start.ties g rel (EvalM.read (·.slot? root n) >>= fun found => present n found >>= next)
      (LedgerM.present n (a.slot? n) >>= next') := by
  cases hb : a.slot? n with
  | none =>
    refine .read (x := none) (fun h hg _ => ?_) (.fail fun _ _ => rfl)
    exact (hd.extend hg).slot?_none hb
  | some b =>
    obtain ⟨id, hid, hd'⟩ := hd.slot?_some hb
    refine .read (x := some id) (fun h hg _ => ?_) (hn id b hd')
    rw [hd.slot?_extend hg, hid]

/-! ## The twelve opcodes -/

variable {nested : Nested} {nested' : Noun.Nested} {subject args : NodeId} {a b : Noun}

theorem follows_slot (hs : g.Denotes subject a) (ha : g.Denotes args b) :
    Follows start.ties g Outcome.Denotes (slot subject args) (Noun.apply nested' a .slot b) := by
  cases b with
  | atom n =>
    refine follows_axis .slot ha ?_
    exact follows_present n hs fun id b hd => .pure fun h hg => .product (hd.extend hg)
  | cell c d => exact follows_axis_cell .slot ha

theorem follows_quote (ha : g.Denotes args b) :
    Follows start.ties g Outcome.Denotes (quote args) (Noun.apply nested' a .quote b) :=
  .pure fun _ hg => .product (ha.extend hg)

variable (hn : NestedFollows start nested nested')
include hn

theorem follows_eval (hs : g.Denotes subject a) (ha : g.Denotes args b) :
    Follows start.ties g Outcome.Denotes (eval nested subject args) (Noun.apply nested' a .eval b) := by
  cases b with
  | atom n => exact follows_pair_atom .eval ha
  | cell c d =>
    apply follows_pair .eval ha
    intro head tail hc hd
    apply (hn hs hc).bind
    intro h s p hg hp
    apply (hn (hs.extend hg) (hd.extend hg)).bind
    intro k f q hg' hq
    exact .pure fun _ hext => .tail ((hp.extend hg').extend hext) (hq.extend hext)

theorem follows_isCell (hs : g.Denotes subject a) (ha : g.Denotes args b) :
    Follows start.ties g Outcome.Denotes (isCell nested subject args)
      (Noun.apply nested' a .isCell b) := by
  rw [Noun.apply]
  apply (hn hs ha).bind
  intro h id p _ hp
  cases p with
  | atom n =>
    refine .read (fun k hk _ => (hp.extend hk).cell?_atom) ?_
    exact follows_answer
  | cell c d =>
    obtain ⟨head, tail, hnode, _, _⟩ := hp.exists_cell
    refine .read (fun k hk _ => ?_) (x := some (head, tail)) follows_answer
    simp [Graph.cell?, hk hnode]

theorem follows_increment (hs : g.Denotes subject a) (ha : g.Denotes args b) :
    Follows start.ties g Outcome.Denotes (increment nested subject args)
      (Noun.apply nested' a .increment b) := by
  rw [Noun.apply]
  apply (hn hs ha).bind
  intro h id p _ hp
  cases p with
  | atom n =>
    refine .read (fun k hk _ => (hp.extend hk).atom?_atom) ?_
    exact follows_product fun _ _ _ => rfl
  | cell c d => exact .read (fun k hk _ => (hp.extend hk).atom?_cell) (.throw _)

theorem follows_same (hs : g.Denotes subject a) (ha : g.Denotes args b) :
    Follows start.ties g Outcome.Denotes (same nested subject args) (Noun.apply nested' a .same b) := by
  cases b with
  | atom n => exact follows_pair_atom .same ha
  | cell c d =>
    apply follows_pair .same ha
    intro head tail hc hd
    apply (hn hs hc).bind
    intro h left p hg hp
    apply (hn (hs.extend hg) (hd.extend hg)).bind
    intro k right q hg' hq run ledger ht hk
    -- Only in the well-formed graph of a run are equal nouns equal ids.
    have hsame : (left == right) = decide (p = q) := by
      rw [Bool.eq_iff_iff, beq_iff_eq, decide_eq_true_iff]
      constructor
      · rintro rfl
        exact (hp.extend hg').functional hq
      · rintro rfl
        exact ((hp.extend hg').extend hk).injective ht.wellFormed (hq.extend hk)
    rw [hsame]
    exact follows_answer run ledger ht hk

theorem follows_branch (hs : g.Denotes subject a) (ha : g.Denotes args b) :
    Follows start.ties g Outcome.Denotes (branch nested subject args)
      (Noun.apply nested' a .branch b) := by
  cases b with
  | atom n => exact follows_pair_atom .branch ha
  | cell c de =>
    apply follows_pair .branch ha
    intro head tail hc hde
    cases de with
    | atom n => exact follows_pair_atom .branch hde
    | cell d e =>
      apply follows_pair .branch hde
      intro yes no hd he
      rw [Noun.apply]
      apply (hn hs hc).bind
      intro h test p hg hp
      refine .read (fun k hk _ => (hp.extend hk).loobean?) ?_
      rcases p with n | ⟨p, q⟩
      · rcases n with _ | _ | n
        · exact .pure fun _ hk => .tail ((hs.extend hg).extend hk) ((hd.extend hg).extend hk)
        · exact .pure fun _ hk => .tail ((hs.extend hg).extend hk) ((he.extend hg).extend hk)
        · exact .throw _
      · exact .throw _

theorem follows_compose (hs : g.Denotes subject a) (ha : g.Denotes args b) :
    Follows start.ties g Outcome.Denotes (compose nested subject args)
      (Noun.apply nested' a .compose b) := by
  cases b with
  | atom n => exact follows_pair_atom .compose ha
  | cell c d =>
    apply follows_pair .compose ha
    intro head tail hc hd
    apply (hn hs hc).bind
    intro h s p hg hp
    exact .pure fun _ hk => .tail (hp.extend hk) ((hd.extend hg).extend hk)

theorem follows_push (hs : g.Denotes subject a) (ha : g.Denotes args b) :
    Follows start.ties g Outcome.Denotes (push nested subject args) (Noun.apply nested' a .push b) := by
  cases b with
  | atom n => exact follows_pair_atom .push ha
  | cell c d =>
    apply follows_pair .push ha
    intro head tail hc hd
    apply (hn hs hc).bind
    intro h pushed p hg hp
    have hstore : ∀ k : Graph, h.Extends k → k.WellFormed →
        k.cell pushed subject = k.put (.cell p a) := fun k hk wf =>
      Graph.cell_eq_put wf (hp.extend hk) ((hs.extend hg).extend hk)
    apply (Follows.store hstore).bind
    intro k s q hg' hq
    exact .pure fun _ hk => .tail (hq.extend hk) (((hd.extend hg).extend hg').extend hk)

theorem follows_pull (hs : g.Denotes subject a) (ha : g.Denotes args b) :
    Follows start.ties g Outcome.Denotes (pull nested subject args) (Noun.apply nested' a .pull b) := by
  rcases b with n | ⟨b, c⟩
  · exact follows_pair_atom .pull ha
  · apply follows_pair .pull ha
    intro head tail hb hc
    rcases b with n | ⟨b₁, b₂⟩
    · refine follows_axis .pull hb ?_
      apply (hn hs hc).bind
      intro h core p hg hp
      exact follows_present n hp fun arm f hf => .pure fun _ hk => .tail (hp.extend hk) (hf.extend hk)
    · exact follows_axis_cell .pull hb

omit hn in
theorem follows_replace {target value : NodeId} {c d : Noun} (n : Nat)
    (ht : g.Denotes target c) (hv : g.Denotes value d) :
    Follows start.ties g Outcome.Denotes
      (EvalM.store (·.edit target n value) >>= fun found =>
        present n found >>= fun id => return .product id)
      (LedgerM.present n (c.edit? n d) >>= Noun.produce) := by
  have hedit : ∀ run : Run, g.Extends run.graph → run.graph.WellFormed →
      run.graph.edit target n value = run.graph.putEdit (c.edit? n d) := fun run hg wf =>
    (ht.extend hg).edit wf (hv.extend hg) n
  intro run ledger hrun hg
  specialize hedit run hg hrun.wellFormed
  cases hc : c.edit? n d with
  | none =>
    rw [hc] at hedit
    have hact : EvalM.store (·.edit target n value) run = .ok none run := by
      change EStateM.Result.ok (run.graph.edit target n value).1
        { run with graph := (run.graph.edit target n value).2 } = _
      rw [hedit]
      rfl
    change Agree start.ties g Outcome.Denotes (EStateM.bind _ _ run) _
    rw [EStateM.bind, hact]
    exact .error hrun hg
  | some e =>
    rw [hc] at hedit
    have hact : EvalM.store (·.edit target n value) run =
        .ok (some (run.graph.put e).1) { run with graph := (run.graph.put e).2 } := by
      change EStateM.Result.ok (run.graph.edit target n value).1
        { run with graph := (run.graph.edit target n value).2 } = _
      rw [hedit]
      rfl
    have hput : Follows start.ties g Outcome.Denotes
        (do return .product (← EvalM.store (·.put e))) (Noun.produce e) :=
      follows_product fun _ _ _ => rfl
    change Agree start.ties g Outcome.Denotes (EStateM.bind _ _ run) _
    rw [EStateM.bind, hact]
    exact hput run ledger hrun hg

theorem follows_edit (hs : g.Denotes subject a) (ha : g.Denotes args b) :
    Follows start.ties g Outcome.Denotes (edit nested subject args) (Noun.apply nested' a .edit b) := by
  rcases b with n | ⟨bc, d⟩
  · exact follows_pair_atom .edit ha
  · apply follows_pair .edit ha
    intro head tail hbc hd
    rcases bc with n | ⟨b, c⟩
    · exact follows_pair_atom .edit hbc
    · apply follows_pair .edit hbc
      intro axisId valueId hb hc
      rcases b with n | ⟨b₁, b₂⟩
      · refine follows_axis .edit hb ?_
        apply (hn hs hc).bind
        intro h value p hg hp
        apply (hn (hs.extend hg) (hd.extend hg)).bind
        intro k target q hg' hq
        exact follows_replace n hq (hp.extend hg')
      · exact follows_axis_cell .edit hb

theorem follows_hint (hs : g.Denotes subject a) (ha : g.Denotes args b) :
    Follows start.ties g Outcome.Denotes (hint nested subject args) (Noun.apply nested' a .hint b) := by
  rcases b with n | ⟨b, c⟩
  · exact follows_pair_atom .hint ha
  · apply follows_pair .hint ha
    intro tag body hb hc
    rcases b with n | ⟨b, clue⟩
    · refine .read (fun k hk _ => (hb.extend hk).cell?_atom) ?_
      exact .pure fun _ hk => .tail (hs.extend hk) (hc.extend hk)
    · obtain ⟨head, tail, hnode, _, hclue⟩ := hb.exists_cell
      refine .read (x := some (head, tail)) (fun k hk _ => ?_) ?_
      · simp [Graph.cell?, hk hnode]
      · apply (hn hs hclue).bind
        intro h _ _ hg _
        exact .pure fun _ hk => .tail ((hs.extend hg).extend hk) ((hc.extend hg).extend hk)

theorem follows_apply (op : Opcode) (hs : g.Denotes subject a) (ha : g.Denotes args b) :
    Follows start.ties g Outcome.Denotes (apply nested subject args op) (Noun.apply nested' a op b) := by
  cases op with
  | slot => exact follows_slot hs ha
  | quote => exact follows_quote ha
  | eval => exact follows_eval hn hs ha
  | isCell => exact follows_isCell hn hs ha
  | increment => exact follows_increment hn hs ha
  | same => exact follows_same hn hs ha
  | branch => exact follows_branch hn hs ha
  | compose => exact follows_compose hn hs ha
  | push => exact follows_push hn hs ha
  | pull => exact follows_pull hn hs ha
  | edit => exact follows_edit hn hs ha
  | hint => exact follows_hint hn hs ha

end Rule

/-! ## Steps and evaluations -/

variable {start : Run} {g : Graph}

theorem follows_step {nested : Rule.Nested} {nested' : Noun.Nested}
    (hn : NestedFollows start nested nested') {s f : NodeId} {a b : Noun}
    (hs : g.Denotes s a) (hf : g.Denotes f b) :
    Follows start.ties g Outcome.Denotes (step nested s f) (Noun.step nested' a b) := by
  rcases b with n | ⟨b, c⟩
  · exact .read (fun k hk _ => (hf.extend hk).cell?_atom) (.throw _)
  obtain ⟨head, args, hnode, hb, hc⟩ := hf.exists_cell
  refine .read (x := some (head, args)) (fun k hk _ => by simp [Graph.cell?, hk hnode]) ?_
  rcases b with code | ⟨b₁, b₂⟩
  · refine .read (fun k hk _ => (hb.extend hk).cell?_atom) ?_
    refine .read (fun k hk _ => (hb.extend hk).word?_atom) ?_
    rw [Noun.step, Noun.opcode]
    by_cases hcode : code < UInt64.size
    · rw [if_pos hcode, if_pos hcode]
      dsimp only
      cases Opcode.ofWord? code.toUInt64 with
      | none => exact .throw _
      | some op =>
        apply (Follows.record _ hs hf).bind
        intro h _ _ hg _
        exact Rule.follows_apply hn op (hs.extend hg) (hc.extend hg)
    · rw [if_neg hcode, if_neg hcode]
      exact .throw _
  · obtain ⟨first, second, hnode', _, _⟩ := hb.exists_cell
    refine .read (x := some (first, second)) (fun k hk _ => by simp [Graph.cell?, hk hnode']) ?_
    apply (Follows.record _ hs hf).bind
    intro h _ _ hg _
    apply (hn (hs.extend hg) (hb.extend hg)).bind
    intro k p₁ p hg' hp
    have hall := hg.trans hg'
    apply (hn (hs.extend hall) (hc.extend hall)).bind
    intro k' q₁ q hg'' hq
    exact Rule.follows_product fun l hl wf =>
      Graph.cell_eq_put wf ((hp.extend hg'').extend hl) (hq.extend hl)

theorem follows_reduce (start : Run) (limits : Limits) (budget : Nat) {s f : NodeId} {a b : Noun}
    (hs : g.Denotes s a) (hf : g.Denotes f b) :
    Follows start.ties g Graph.Denotes (reduce limits budget s f)
      (Noun.reduce limits budget start.depth a b) := by
  induction budget generalizing start g s f a b with
  | zero => exact .throw _
  | succ budget ih =>
    apply (Follows.countStep limits.steps).bind
    intro h _ _ hg _
    have hn : NestedFollows start
        (fun s f => EvalM.nested limits.depth (reduce limits budget s f))
        (Noun.evaluate limits budget start.depth) := fun k s f a b hs hf =>
      .nested (ih { start with depth := start.depth + 1 } hs hf)
    apply (follows_step hn (hs.extend hg) (hf.extend hg)).bind
    intro k left left' _ hleft
    cases hleft with
    | product hp => exact .pure fun _ hk => hp.extend hk
    | tail hs' hf' => exact ih start hs' hf'

theorem follows_evaluate (start : Run) (limits : Limits) (budget : Nat) {s f : NodeId} {a b : Noun}
    (hs : g.Denotes s a) (hf : g.Denotes f b) :
    Follows start.ties g Graph.Denotes (evaluate limits budget s f)
      (Noun.evaluate limits budget start.depth a b) :=
  .nested (follows_reduce { start with depth := start.depth + 1 } limits budget hs hf)

end NockDispatch
