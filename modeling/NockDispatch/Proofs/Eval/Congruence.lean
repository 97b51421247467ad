import NockDispatch.Proofs.Eval.Rounds

/-!
# Two evaluations of a formula, compared part by part

Evaluation is put together from a few primitives. A comparison that holds of each of them, and of
computations in a row when it holds of their parts, holds of two evaluations of the same formula,
which may be held to different limits. The rules are gone through once here, and then the budget.

A step is counted before its formula is looked at, and its rule is recorded after that. So a
comparison may tell apart the stage in between.
-/

namespace NockDispatch

/-- The errors of a formula that asks for no rule. -/
def EvalError.IsRuleless : EvalError → Prop
  | atomFormula => True
  | badOpcode _ => True
  | _ => False

instance : DecidablePred EvalError.IsRuleless
  | .atomFormula | .badOpcode _ => isTrue trivial
  | .badArguments _ | .missingAxis _ | .notAnAtom | .notLoobean | .stepLimit _ | .depthLimit _ =>
    isFalse id

theorem EvalError.IsRuleless.not_isLimit {e : EvalError} (he : e.IsRuleless) : ¬ e.IsLimit := by
  cases e with
  | stepLimit _ | depthLimit _ => exact fun _ => he
  | _ => exact not_false

/-- Where a computation starts. -/
inductive Stage where
  /-- The rule of every counted step is recorded. -/
  | settled
  /-- A step is counted, and its rule is yet to be recorded. -/
  | owing

/-- A way to compare computations at a stage, with a budget. -/
abbrev Comparison (ν ν' : Type := Nat) :=
  Stage → Nat → ∀ ⦃α : Type⦄, EvalOn ν α → EvalOn ν' α → Prop

/-- A comparison that holds of all that a round is put together from, within a step limit on the
left and one on the right. -/
structure Comparison.Composes (limit limit' : Nat) (rel : Comparison ν ν') : Prop where
  pure (n : Nat) {α : Type} (x : α) : rel .settled n (Pure.pure x) (Pure.pure x)
  bind {stage : Stage} {n : Nat} {α β : Type} {m : EvalOn ν α} {m' : EvalOn ν' α}
    {k : α → EvalOn ν β} {k' : α → EvalOn ν' β} :
    rel stage n m m' → (∀ x, rel .settled n (k x) (k' x)) → rel stage n (m >>= k) (m' >>= k')
  read {stage : Stage} {n : Nat} {α β : Type} {look : Graph → α} {k : α → EvalOn ν β}
    {k' : α → EvalOn ν' β} : (∀ x, rel stage n (k x) (k' x)) →
      rel stage n (EvalM.read look >>= k) (EvalM.read look >>= k')
  store (n : Nat) {α : Type} (put : Graph → α × Graph) :
    rel .settled n (EvalM.store put) (EvalM.store put)
  record (n : Nat) (rule : Rule) (s f : NodeId) :
    rel .owing n (EvalM.record rule s f) (EvalM.record rule s f)
  fail (n : Nat) {α : Type} {e : EvalError} : ¬ e.IsLimit → ¬ e.IsRuleless →
    rel .settled n (throw e : EvalOn ν α) (throw e : EvalOn ν' α)
  ruleless (n : Nat) {α : Type} {e : EvalError} : e.IsRuleless →
    rel .owing n (throw e : EvalOn ν α) (throw e : EvalOn ν' α)
  countStep {n : Nat} {α : Type} {m : EvalOn ν α} {m' : EvalOn ν' α} : rel .owing n m m' →
    rel .settled (n + 1) (EvalM.countStep limit >>= fun _ => m)
      (EvalM.countStep limit' >>= fun _ => m')

/-- A comparison that holds of all that an evaluation is put together from, within limits on the
left and limits on the right. -/
structure Comparison.Congruent (limits limits' : Limits) (rel : Comparison) : Prop
    extends rel.Composes limits.steps limits'.steps where
  nested {n : Nat} {α : Type} {m m' : EvalM α} : rel .settled n m m' →
    rel .settled n (EvalM.nested limits.depth m) (EvalM.nested limits'.depth m')
  spent {α : Type} : rel .settled 0 (throw (.stepLimit limits.steps) : EvalM α)
    (throw (.stepLimit limits'.steps))

namespace Comparison

namespace Composes

variable {limit limit' : Nat} {rel : Comparison ν ν'} (hrel : rel.Composes limit limit') {n : Nat}
include hrel

/-! ## Parts of the rules -/

theorem pair (op : Opcode) (id : NodeId) :
    rel .settled n (Rule.pair op id) (Rule.pair op id) := by
  refine hrel.read fun halves => ?_
  cases halves with
  | none => exact hrel.fail n not_false not_false
  | some halves => exact hrel.pure n halves

theorem axis (op : Opcode) (id : NodeId) :
    rel .settled n (Rule.axis op id) (Rule.axis op id) := by
  refine hrel.read fun axis => ?_
  cases axis with
  | none => exact hrel.fail n not_false not_false
  | some axis => exact hrel.pure n axis

theorem present (axis : Nat) (found : Option NodeId) :
    rel .settled n (Rule.present axis found) (Rule.present axis found) := by
  cases found with
  | none => exact hrel.fail n not_false not_false
  | some id => exact hrel.pure n id

theorem product (put : Graph → NodeId × Graph) :
    rel .settled n (return Outcome.product (← EvalM.store put))
      (return Outcome.product (← EvalM.store put)) :=
  hrel.bind (hrel.store n put) fun id => hrel.pure n (Outcome.product id)

theorem answer (yes : Bool) : rel .settled n (Rule.answer yes) (Rule.answer yes) :=
  hrel.product _

/-! ## The rules -/

variable {nested : Rule.Nested ν} {nested' : Rule.Nested ν'}
  (hn : ∀ s f, rel .settled n (nested s f) (nested' s f)) (subject args : NodeId)

theorem slot : rel .settled n (Rule.slot subject args) (Rule.slot subject args) := by
  refine hrel.bind (hrel.axis .slot args) fun axis => ?_
  refine hrel.read fun found => ?_
  exact hrel.bind (hrel.present axis found) fun id => hrel.pure n (Outcome.product id)

include hn

theorem distribute (formula : NodeId) :
    rel .settled n (Rule.distribute nested subject args formula)
      (Rule.distribute nested' subject args formula) :=
  hrel.bind (hn subject formula) fun head =>
    hrel.bind (hn subject args) fun tail => hrel.product (·.cell head tail)

theorem eval : rel .settled n (Rule.eval nested subject args) (Rule.eval nested' subject args) := by
  refine hrel.bind (hrel.pair .eval args) fun ⟨b, c⟩ => ?_
  refine hrel.bind (hn subject b) fun newSubject => ?_
  exact hrel.bind (hn subject c) fun newFormula => hrel.pure n (Outcome.tail newSubject newFormula)

theorem isCell :
    rel .settled n (Rule.isCell nested subject args) (Rule.isCell nested' subject args) := by
  refine hrel.bind (hn subject args) fun product => ?_
  exact hrel.read fun halves => hrel.answer halves.isSome

theorem increment :
    rel .settled n (Rule.increment nested subject args) (Rule.increment nested' subject args) := by
  refine hrel.bind (hn subject args) fun product => ?_
  refine hrel.read fun value => ?_
  cases value with
  | none => exact hrel.fail n not_false not_false
  | some value => exact hrel.product (·.atom (value + 1))

theorem same : rel .settled n (Rule.same nested subject args) (Rule.same nested' subject args) := by
  refine hrel.bind (hrel.pair .same args) fun ⟨b, c⟩ => ?_
  refine hrel.bind (hn subject b) fun left => ?_
  exact hrel.bind (hn subject c) fun right => hrel.answer (left == right)

theorem branch :
    rel .settled n (Rule.branch nested subject args) (Rule.branch nested' subject args) := by
  refine hrel.bind (hrel.pair .branch args) fun ⟨b, cd⟩ => ?_
  refine hrel.bind (hrel.pair .branch cd) fun ⟨c, d⟩ => ?_
  refine hrel.bind (hn subject b) fun test => ?_
  refine hrel.read fun yes => ?_
  rcases yes with _ | _ | _
  · exact hrel.fail n not_false not_false
  · exact hrel.pure n (Outcome.tail subject d)
  · exact hrel.pure n (Outcome.tail subject c)

theorem compose :
    rel .settled n (Rule.compose nested subject args) (Rule.compose nested' subject args) := by
  refine hrel.bind (hrel.pair .compose args) fun ⟨b, c⟩ => ?_
  exact hrel.bind (hn subject b) fun newSubject => hrel.pure n (Outcome.tail newSubject c)

theorem push : rel .settled n (Rule.push nested subject args) (Rule.push nested' subject args) := by
  refine hrel.bind (hrel.pair .push args) fun ⟨b, c⟩ => ?_
  refine hrel.bind (hn subject b) fun pushed => ?_
  exact hrel.bind (hrel.store n (·.cell pushed subject)) fun newSubject =>
    hrel.pure n (Outcome.tail newSubject c)

theorem pull : rel .settled n (Rule.pull nested subject args) (Rule.pull nested' subject args) := by
  refine hrel.bind (hrel.pair .pull args) fun ⟨b, c⟩ => ?_
  refine hrel.bind (hrel.axis .pull b) fun axis => ?_
  refine hrel.bind (hn subject c) fun core => ?_
  refine hrel.read fun found => ?_
  exact hrel.bind (hrel.present axis found) fun arm => hrel.pure n (Outcome.tail core arm)

theorem edit : rel .settled n (Rule.edit nested subject args) (Rule.edit nested' subject args) := by
  refine hrel.bind (hrel.pair .edit args) fun ⟨bc, d⟩ => ?_
  refine hrel.bind (hrel.pair .edit bc) fun ⟨b, c⟩ => ?_
  refine hrel.bind (hrel.axis .edit b) fun axis => ?_
  refine hrel.bind (hn subject c) fun value => ?_
  refine hrel.bind (hn subject d) fun target => ?_
  refine hrel.bind (hrel.store n (·.edit target axis value)) fun found => ?_
  exact hrel.bind (hrel.present axis found) fun id => hrel.pure n (Outcome.product id)

theorem hint : rel .settled n (Rule.hint nested subject args) (Rule.hint nested' subject args) := by
  refine hrel.bind (hrel.pair .hint args) fun ⟨b, c⟩ => ?_
  refine hrel.read fun halves => ?_
  cases halves with
  | none => exact hrel.pure n (Outcome.tail subject c)
  | some halves =>
    exact hrel.bind (hn subject halves.2) fun _ => hrel.pure n (Outcome.tail subject c)

theorem apply (op : Opcode) :
    rel .settled n (Rule.apply nested subject args op) (Rule.apply nested' subject args op) := by
  cases op with
  | slot => exact hrel.slot subject args
  | quote => exact hrel.pure n (Outcome.product args)
  | eval => exact hrel.eval hn subject args
  | isCell => exact hrel.isCell hn subject args
  | increment => exact hrel.increment hn subject args
  | same => exact hrel.same hn subject args
  | branch => exact hrel.branch hn subject args
  | compose => exact hrel.compose hn subject args
  | push => exact hrel.push hn subject args
  | pull => exact hrel.pull hn subject args
  | edit => exact hrel.edit hn subject args
  | hint => exact hrel.hint hn subject args

/-! ## Steps and rounds -/

theorem step (subject formula : NodeId) :
    rel .owing n (NockDispatch.step nested subject formula)
      (NockDispatch.step nested' subject formula) := by
  refine hrel.read fun halves => ?_
  rcases halves with _ | ⟨head, args⟩
  · exact hrel.ruleless n trivial
  refine hrel.read fun cell => ?_
  cases cell with
  | some _ =>
    exact hrel.bind (hrel.record n .autocons subject formula) fun _ =>
      hrel.distribute hn subject args head
  | none =>
    refine hrel.read fun code => ?_
    cases code with
    | none => exact hrel.ruleless n trivial
    | some code =>
      dsimp only
      cases Opcode.ofWord? code with
      | none => exact hrel.ruleless n trivial
      | some op =>
        exact hrel.bind (hrel.record n (.opcode op) subject formula) fun _ =>
          hrel.apply hn subject args op

end Composes

/-- Of one more round, one step is counted, and the rest is up to the loops that go on from it. -/
theorem Composes.round {limits limits' : Limits} {rel : Comparison ν ν'}
    (hrel : rel.Composes limits.steps limits'.steps) {n : Nat} {note : ν → UInt64 → ν}
    {note' : ν' → UInt64 → ν'} {again : Loop ν} {again' : Loop ν'}
    (hnested : ∀ s f, rel .settled n (EvalM.nestedNoting note limits.depth (again s f))
      (EvalM.nestedNoting note' limits'.depth (again' s f)))
    (htail : ∀ s f, rel .settled n (again s f) (again' s f)) (subject formula : NodeId) :
    rel .settled (n + 1) (Loop.round limits note again subject formula)
      (Loop.round limits' note' again' subject formula) := by
  refine hrel.countStep ?_
  refine hrel.bind (hrel.step hnested subject formula) fun left => ?_
  cases left with
  | product id => exact hrel.pure n id
  | tail s f => exact htail s f

/-! ## Evaluations -/

namespace Congruent

variable {limits limits' : Limits} {rel : Comparison} (hrel : rel.Congruent limits limits')
include hrel

theorem reduce (budget : Nat) (subject formula : NodeId) :
    rel .settled budget (NockDispatch.reduce limits budget subject formula)
      (NockDispatch.reduce limits' budget subject formula) := by
  induction budget generalizing subject formula with
  | zero => exact hrel.spent
  | succ budget ih => exact hrel.round (fun s f => hrel.nested (ih s f)) ih subject formula

theorem evaluate (budget : Nat) (subject formula : NodeId) :
    rel .settled budget (NockDispatch.evaluate limits budget subject formula)
      (NockDispatch.evaluate limits' budget subject formula) :=
  hrel.nested (hrel.reduce budget subject formula)

end Congruent
end Comparison
end NockDispatch
