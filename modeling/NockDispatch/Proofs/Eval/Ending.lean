import NockDispatch.Proofs.Eval.Account
import NockDispatch.Proofs.Eval.Nock

/-!
# Ends of evaluations

An end is a product or an error that names no limit. A formula on a subject comes to one end at
most, whatever the limits are, and limits that are large enough let it come to it. So the ends of
a formula are those of the formulas inside, one after another, where an error is the end of all:
limits and counters play no part any more.
-/

namespace NockDispatch

/-! ## One end after another -/

/-- Ends of one thing and then of another, which is not reached after an error. -/
def Then (first : Except ε α → Prop) (next : α → Except ε β → Prop) (o : Except ε β) : Prop :=
  (∃ x, first (.ok x) ∧ next x o) ∨ ∃ e, first (.error e) ∧ o = .error e

def Only (o : Except ε α) : Except ε α → Prop := fun o' => o' = o

theorem only_ok_then (x : α) (next : α → Except ε β → Prop) :
    Then (Only (.ok x)) next = next x := by
  funext o
  simp [Then, Only]

theorem then_only_ok (first : Except ε α → Prop) : (Then first fun x => Only (.ok x)) = first := by
  funext o
  cases o <;> simp [Then, Only]

theorem then_assoc (first : Except ε α → Prop) (next : α → Except ε β → Prop)
    (last : β → Except ε γ → Prop) :
    Then (Then first next) last = Then first fun x => Then (next x) last := by
  funext o
  apply propext
  constructor
  · rintro (⟨y, ⟨x, hx, hy⟩ | ⟨e, _, he⟩, ho⟩ | ⟨e, ⟨x, hx, he⟩ | ⟨e', he', h⟩, rfl⟩)
    · exact .inl ⟨x, hx, .inl ⟨y, hy, ho⟩⟩
    · cases he
    · exact .inl ⟨x, hx, .inr ⟨e, he, rfl⟩⟩
    · cases h
      exact .inr ⟨e, he', rfl⟩
  · rintro (⟨x, hx, ⟨y, hy, ho⟩ | ⟨e, he, rfl⟩⟩ | ⟨e, he, rfl⟩)
    · exact .inl ⟨y, .inl ⟨x, hx, hy⟩, ho⟩
    · exact .inr ⟨e, .inl ⟨x, hx, he⟩, rfl⟩
    · exact .inr ⟨e, .inr ⟨e, he, rfl⟩, rfl⟩

/-! ## Ends of computations within bounds -/

/-- A computation ends as `o` wherever the bounds allow it to end. -/
def EndsAs (m : BoundedM α) (o : Except EvalError α) : Prop := ∃ b, Costs m o b

/-- Whatever the bounds are, a computation names a limit or has a cost. -/
def Accounted (m : BoundedM α) : Prop := ∀ budget, Accountable budget m

def Limits.bounds (limits : Limits) : Bounds := ⟨limits, limits.steps, 0⟩

theorem Limits.hold_bounds (limits : Limits) : limits.bounds.Hold (.fresh 0 0) :=
  ⟨Nat.zero_le _, Nat.le_add_left _ _⟩

theorem Limits.cover_bounds {limits : Limits} {b : Bill} :
    limits.bounds.Cover (.fresh 0 0) b ↔
      b.steps ≤ limits.steps ∧ greatestDepth 0 b.depth ≤ limits.depth := by
  have hsteps : (Ledger.fresh 0 0).steps + b.steps = b.steps := Nat.zero_add _
  constructor
  · rintro ⟨h, h'⟩
    exact ⟨hsteps ▸ h, h'⟩
  · rintro ⟨h, h'⟩
    exact ⟨hsteps.symm ▸ h, h'⟩

/-- Limits that cover a bill without anything to spare. -/
def Bill.limits (b : Bill) : Limits := ⟨b.steps, b.depth⟩

variable {m : BoundedM α} {k : α → BoundedM β} {o o' : Except EvalError α} {b b' : Bill}

theorem Costs.run (h : Costs m o b) (limits : Limits) (hsteps : b.steps ≤ limits.steps)
    (hdepth : b.depth ≤ limits.depth) :
    m limits.bounds (.fresh 0 0) = finish o ((Ledger.fresh 0 0).charge 0 b) := by
  have hgreatest : greatestDepth 0 b.depth ≤ b.depth :=
    Nat.le_trans (greatestDepth_le 0 b.depth) (Nat.le_of_eq (Nat.zero_add _))
  exact h.covered limits.hold_bounds
    (Limits.cover_bounds.mpr ⟨hsteps, Nat.le_trans hgreatest hdepth⟩)

theorem Costs.end_unique (h : Costs m o b) (h' : Costs m o' b') : o = o' := by
  let limits : Limits := ⟨max b.steps b'.steps, max b.depth b'.depth⟩
  have hrun := h.run limits (Nat.le_max_left _ _) (Nat.le_max_left _ _)
  have hrun' := h'.run limits (Nat.le_max_right _ _) (Nat.le_max_right _ _)
  rw [← outcome_finish o, ← hrun, hrun', outcome_finish]

theorem Fair.not_limit (hf : Fair o) {e : EvalError} {l l' : Ledger} (he : e.IsLimit) :
    finish o l ≠ .error e l' := by
  intro h
  cases o with
  | ok x => cases h
  | error e' =>
    cases h
    exact hf e rfl he

/-- What a computation ends with within some bounds is the end of it. -/
theorem Accounted.endsAs (hm : Accounted m) {c : Bounds} {l l' : Ledger} (hc : c.Hold l)
    (hf : Fair o) (hrun : m c l = finish o l') : EndsAs m o := by
  rcases hm c.budget hc rfl with ⟨e, l', hlimit, he⟩ | ⟨o', b, hcost⟩
  · exact absurd (hrun.symm.trans hlimit) (hf.not_limit he)
  · by_cases hb : c.Cover l b
    · have hsame := hrun.symm.trans (hcost.covered hc hb)
      have ho : o = o' := by rw [← outcome_finish o l', hsame, outcome_finish]
      exact ⟨b, ho ▸ hcost⟩
    · have hcut := hcost.cut hc hb
      rw [hrun] at hcut
      generalize hleft : finish o l' = left at hcut
      cases hcut with
      | intro he => exact absurd hleft (hf.not_limit he.isLimit)

theorem Accounted.bind (hm : Accounted m) (hk : ∀ x, Accounted (k x)) :
    Accounted fun c => m c >>= fun x => k x c :=
  fun budget => (hm budget).bind fun x => hk x budget

theorem accounted_of_costs (h : Costs m o b) : Accounted m := fun _ => .of_costs h

theorem Costs.endsAs_only (h : Costs m o b) : EndsAs m = Only o := by
  funext o'
  apply propext
  constructor
  · rintro ⟨b', h'⟩
    exact h'.end_unique h
  · rintro rfl
    exact ⟨b, h⟩

theorem endsAs_bind (hm : Accounted m) (hk : ∀ x, Accounted (k x)) :
    (EndsAs fun c => m c >>= fun x => k x c) = Then (EndsAs m) fun x => EndsAs (k x) := by
  funext o
  apply propext
  constructor
  · rintro ⟨b, hcost⟩
    have hrun := hcost.run b.limits (Nat.le_refl _) (Nat.le_refl _)
    rcases (hm _).bind_cases (fun x => hk x _) b.limits.hold_bounds rfl with
      ⟨e, l', hlimit, he⟩ | ⟨e, b', hfirst⟩ | ⟨x, o', b', b'', hfirst, hnext⟩
    · exact absurd (hrun.symm.trans hlimit) (hcost.fair.not_limit he)
    · exact .inr ⟨e, ⟨b', hfirst⟩, hcost.end_unique hfirst.bind_error⟩
    · have hsame : o = o' := hcost.end_unique (hfirst.bind_ok hnext)
      exact .inl ⟨x, ⟨b', hfirst⟩, b'', hsame ▸ hnext⟩
  · rintro (⟨x, ⟨b, hfirst⟩, b', hnext⟩ | ⟨e, ⟨b, hfirst⟩, rfl⟩)
    · exact ⟨_, hfirst.bind_ok hnext⟩
    · exact ⟨_, hfirst.bind_error⟩

namespace Noun

variable {a f : Noun}

theorem accounted_reduce (a f : Noun) : Accounted (reduceIn a f) := fun budget =>
  reduce_accountable budget a f

theorem accounted_evaluate (a f : Noun) : Accounted (evaluateIn a f) := fun budget =>
  evaluate_accountable (reduce_accountable budget) a f

theorem accounted_pursue (a f : Noun) : Accounted (pursue a f) := fun budget =>
  pursue_accountable (reduce_accountable budget) a f

/-- The formula `f` comes to the end `o` on the subject `a`. -/
def Ends (a f : Noun) : Except EvalError Noun → Prop := EndsAs (pursue a f)

theorem endsAs_reduce (a f : Noun) : EndsAs (reduceIn a f) = Ends a f := by
  funext o
  apply propext
  constructor
  · rintro ⟨b, h⟩
    have hc := b.limits.hold_bounds
    have hrun := h.run b.limits (Nat.le_refl _) (Nat.le_refl _)
    rw [reduceIn_eq a f hc] at hrun
    split at hrun
    · exact absurd hrun.symm (h.fair.not_limit trivial)
    · next hleft => exact (accounted_pursue a f).endsAs (hc.spend hleft) h.fair hrun
  · rintro ⟨b, h⟩
    exact ⟨_, costs_reduce h⟩

theorem endsAs_evaluate (a f : Noun) : EndsAs (evaluateIn a f) = Ends a f := by
  rw [← endsAs_reduce]
  funext o
  apply propext
  constructor
  · rintro ⟨b, h⟩
    have hc := b.limits.hold_bounds
    have hrun := h.run b.limits (Nat.le_refl _) (Nat.le_refl _)
    rw [evaluateIn_eq] at hrun
    split at hrun
    · exact absurd hrun.symm (h.fair.not_limit trivial)
    · next hfits => exact (accounted_reduce a f).endsAs hc.deeper h.fair hrun
  · rintro ⟨b, h⟩
    exact ⟨_, costs_evaluate h⟩

/-! ## Ends of formulas -/

def Outcome.Ends : Outcome → Except EvalError Noun → Prop
  | product p => Only (.ok p)
  | tail a f => Noun.Ends a f

theorem accounted_proceed (left : Outcome) : Accounted (proceed left) := by
  cases left with
  | product p => exact accounted_of_costs (.pure p)
  | tail b g => exact accounted_reduce b g

theorem endsAs_proceed (left : Outcome) : EndsAs (proceed left) = left.Ends := by
  cases left with
  | product p => exact (Costs.pure p).endsAs_only
  | tail b g => exact endsAs_reduce b g

def found (n : Nat) : Option Noun → Except EvalError Noun
  | some a => .ok a
  | none => .error (.missingAxis n)

theorem accounted_apply (a : Noun) (op : Opcode) (args : Noun) :
    Accounted fun c => apply (fun b g => evaluateIn b g c) a op args := fun budget =>
  apply_accountable (fun b g => accounted_evaluate b g budget) a op args

theorem ends_opcode (a : Noun) (op : Opcode) (args : Noun) :
    Ends a (cell (atom op.toNat) args) =
      Then (EndsAs fun c => apply (fun b g => evaluateIn b g c) a op args) Outcome.Ends := by
  let rule : BoundedM Outcome := fun c => apply (fun b g => evaluateIn b g c) a op args
  have hrule : Accounted rule := accounted_apply a op args
  have hrecord := Costs.record (.opcode op) a (cell (atom op.toNat) args)
  have hrecorded := (accounted_of_costs hrecord).bind fun _ => hrule
  have hpursue : pursue a (cell (atom op.toNat) args) = fun c =>
      (LedgerM.record (.opcode op) a (cell (atom op.toNat) args) >>= fun _ => rule c) >>=
        fun left => proceed left c := by
    funext c
    rw [pursue, step_opcode]
  rw [Ends, hpursue, endsAs_bind hrecorded accounted_proceed,
    endsAs_bind (accounted_of_costs hrecord) fun _ => hrule, hrecord.endsAs_only, only_ok_then]
  congr 1
  funext left
  exact endsAs_proceed left

theorem endsAs_present (n : Nat) (slot : Option Noun) :
    (EndsAs fun _ => LedgerM.present n slot) = Only (found n slot) := by
  cases slot with
  | none => exact (Costs.throw id).endsAs_only
  | some a => exact (Costs.pure a).endsAs_only

theorem accounted_present (n : Nat) (slot : Option Noun) :
    Accounted fun _ => LedgerM.present n slot := fun _ => accountable_present n slot

theorem accounted_pure (x : α) : Accounted fun _ => Pure.pure x := accounted_of_costs (.pure x)

theorem accounted_produce (a : Noun) : Accounted fun _ => produce a := fun _ =>
  accountable_produce a

theorem endsAs_produce (a : Noun) : (EndsAs fun _ => produce a) = Only (.ok (.product a)) := by
  have hcost : Costs (fun _ => produce a) (.ok (.product a)) _ :=
    (Costs.store a).bind_ok (k := fun b _ => Pure.pure (Outcome.product b)) (.pure _)
  exact hcost.endsAs_only

theorem ends_quote (a b : Noun) : Ends a (cell (atom 1) b) = Only (.ok b) := by
  have hrule : (EndsAs fun c => apply (fun b g => evaluateIn b g c) a .quote b) =
      Only (.ok (.product b)) := (Costs.pure (Outcome.product b)).endsAs_only
  rw [← show Opcode.toNat .quote = 1 from rfl, ends_opcode, hrule, only_ok_then]
  rfl

theorem ends_slot (a : Noun) (n : Nat) :
    Ends a (cell (atom 0) (atom n)) = Only (found n (a.slot? n)) := by
  have hrule : (EndsAs fun c => apply (fun b g => evaluateIn b g c) a .slot (atom n)) =
      Then (Only (found n (a.slot? n))) fun p => Only (.ok (.product p)) := by
    rw [← endsAs_present]
    refine (endsAs_bind (accounted_present n _) fun p =>
      accounted_pure (Outcome.product p)).trans ?_
    congr 1
    funext p
    exact (Costs.pure (Outcome.product p)).endsAs_only
  rw [← show Opcode.toNat .slot = 0 from rfl, ends_opcode, hrule, then_assoc]
  simp only [only_ok_then]
  exact then_only_ok _

theorem ends_pull (a c : Noun) (n : Nat) :
    Ends a (triple (atom 9) (atom n) c) =
      Then (Ends a c) fun core =>
        Then (Only (found n (core.slot? n))) fun arm => Ends core arm := by
  have harm : ∀ core : Noun, Accounted fun _ =>
      LedgerM.present n (core.slot? n) >>= fun arm => Pure.pure (Outcome.tail core arm) :=
    fun core => (accounted_present n _).bind fun arm => accounted_pure (Outcome.tail core arm)
  have hrule : (EndsAs fun c' => apply (fun b g => evaluateIn b g c') a .pull (cell (atom n) c)) =
      Then (Ends a c) fun core =>
        Then (Only (found n (core.slot? n))) fun arm => Only (.ok (.tail core arm)) := by
    refine (endsAs_bind (accounted_evaluate a c) harm).trans ?_
    rw [endsAs_evaluate]
    congr 1
    funext core
    rw [← endsAs_present]
    refine (endsAs_bind (accounted_present n _) fun arm =>
      accounted_pure (Outcome.tail core arm)).trans ?_
    congr 1
    funext arm
    exact (Costs.pure (Outcome.tail core arm)).endsAs_only
  rw [triple, ← show Opcode.toNat .pull = 9 from rfl, ends_opcode, hrule]
  simp only [then_assoc, only_ok_then]
  rfl

/-- The new part comes first, then the noun to be edited, and the slot is looked for at last. -/
theorem ends_edit (a c d : Noun) (n : Nat) :
    Ends a (triple (atom 10) (cell (atom n) c) d) =
      Then (Ends a c) fun value => Then (Ends a d) fun target =>
        Only (found n (target.edit? n value)) := by
  have hlast : ∀ value target : Noun, Accounted fun _ =>
      LedgerM.present n (target.edit? n value) >>= produce :=
    fun value target => (accounted_present n _).bind accounted_produce
  have hrule : (EndsAs fun c' =>
      apply (fun b g => evaluateIn b g c') a .edit (cell (cell (atom n) c) d)) =
      Then (Ends a c) fun value => Then (Ends a d) fun target =>
        Then (Only (found n (target.edit? n value))) fun p => Only (.ok (.product p)) := by
    refine (endsAs_bind (accounted_evaluate a c) fun value =>
      (accounted_evaluate a d).bind (hlast value)).trans ?_
    rw [endsAs_evaluate]
    congr 1
    funext value
    refine (endsAs_bind (accounted_evaluate a d) (hlast value)).trans ?_
    rw [endsAs_evaluate]
    congr 1
    funext target
    rw [← endsAs_present]
    refine (endsAs_bind (accounted_present n _) accounted_produce).trans ?_
    congr 1
    funext p
    exact endsAs_produce p
  rw [triple, ← show Opcode.toNat .edit = 10 from rfl, ends_opcode, hrule]
  simp only [then_assoc, only_ok_then, Outcome.Ends, then_only_ok]

end Noun

/-! ## Ends within limits -/

/-- Some limits let something end as `o`. -/
def Reaches (run : Limits → Except EvalError α) (o : Except EvalError α) : Prop :=
  Fair o ∧ ∃ limits, run limits = o

/-- Limits that are larger still do not change the end. -/
def Steady (run : Limits → Except EvalError α) : Prop :=
  ∀ ⦃o⦄, Reaches run o → ∃ least : Limits, ∀ limits : Limits,
    least.steps ≤ limits.steps → least.depth ≤ limits.depth → run limits = o

section

variable {run : Limits → Except EvalError α} {next : α → Limits → Except EvalError β}
  {o : Except EvalError α}

theorem steady_const (o : Except EvalError α) : Steady fun _ => o := by
  rintro _ ⟨_, _, rfl⟩
  exact ⟨⟨0, 0⟩, fun _ _ _ => rfl⟩

theorem reaches_const (hf : Fair o) : Reaches (fun _ => o) = Only o := by
  funext o'
  apply propext
  constructor
  · rintro ⟨_, _, rfl⟩
    rfl
  · rintro rfl
    exact ⟨hf, ⟨0, 0⟩, rfl⟩

theorem Steady.exists_common (hr : Steady run) (hn : ∀ x, Steady (next x)) {x : α}
    {o : Except EvalError β} (h : Reaches run (.ok x)) (h' : Reaches (next x) o) :
    ∃ least : Limits, ∀ limits : Limits, least.steps ≤ limits.steps →
      least.depth ≤ limits.depth → run limits = .ok x ∧ next x limits = o := by
  obtain ⟨least, hleast⟩ := hr h
  obtain ⟨least', hleast'⟩ := hn x h'
  refine ⟨⟨max least.steps least'.steps, max least.depth least'.depth⟩, ?_⟩
  intro limits hsteps hdepth
  simp only at hsteps hdepth
  exact ⟨hleast limits (by omega) (by omega), hleast' limits (by omega) (by omega)⟩

theorem bind_of_ok {first : Except ε α} {next : α → Except ε β} {x : α} (h : first = .ok x) :
    first >>= next = next x := by
  rw [h]
  rfl

theorem bind_of_error {first : Except ε α} {next : α → Except ε β} {e : ε}
    (h : first = .error e) : first >>= next = .error e := by
  rw [h]
  rfl

theorem reaches_bind (hr : Steady run) (hn : ∀ x, Steady (next x)) :
    (Reaches fun limits => run limits >>= fun x => next x limits) =
      Then (Reaches run) fun x => Reaches (next x) := by
  funext o
  apply propext
  constructor
  · rintro ⟨hf, limits, h⟩
    cases hrun : run limits with
    | ok x => exact .inl ⟨x, ⟨fair_ok x, limits, hrun⟩, hf, limits, (bind_of_ok hrun).symm.trans h⟩
    | error e =>
      obtain rfl := (bind_of_error hrun).symm.trans h
      exact .inr ⟨e, ⟨fair_error (hf e rfl), limits, hrun⟩, rfl⟩
  · rintro (⟨x, hx, ho⟩ | ⟨e, ⟨hf, limits, he⟩, rfl⟩)
    · obtain ⟨least, hleast⟩ := hr.exists_common hn hx ho
      obtain ⟨hrun, hnext⟩ := hleast least (Nat.le_refl _) (Nat.le_refl _)
      exact ⟨ho.1, least, (bind_of_ok hrun).trans hnext⟩
    · exact ⟨fair_error (hf e rfl), limits, bind_of_error he⟩

theorem Steady.bind (hr : Steady run) (hn : ∀ x, Steady (next x)) :
    Steady fun limits => run limits >>= fun x => next x limits := by
  intro o h
  rw [reaches_bind hr hn] at h
  rcases h with ⟨x, hx, ho⟩ | ⟨e, he, rfl⟩
  · obtain ⟨least, hleast⟩ := hr.exists_common hn hx ho
    refine ⟨least, fun limits hsteps hdepth => ?_⟩
    obtain ⟨hrun, hnext⟩ := hleast limits hsteps hdepth
    exact (bind_of_ok hrun).trans hnext
  · obtain ⟨least, hleast⟩ := hr he
    exact ⟨least, fun limits hsteps hdepth => bind_of_error (hleast limits hsteps hdepth)⟩

end

def BoundedM.start (m : BoundedM α) (limits : Limits) : Except EvalError α :=
  outcome (m limits.bounds (.fresh 0 0))

/-- The ends that some limits allow are the ends that a computation has wherever it starts. -/
theorem Accounted.reaches_start (hm : Accounted m) : Reaches (BoundedM.start m) = EndsAs m := by
  funext o
  apply propext
  constructor
  · rintro ⟨hf, limits, h⟩
    obtain ⟨l, hrun⟩ := exists_finish (m limits.bounds (.fresh 0 0))
    have hrun : m limits.bounds (.fresh 0 0) = finish o l := hrun.trans (congrArg (finish · l) h)
    exact hm.endsAs limits.hold_bounds hf hrun
  · rintro ⟨b, h⟩
    refine ⟨h.fair, b.limits, ?_⟩
    rw [BoundedM.start, h.run _ (Nat.le_refl _) (Nat.le_refl _), outcome_finish]

theorem Accounted.steady_start (hm : Accounted m) : Steady (BoundedM.start m) := by
  intro o h
  rw [hm.reaches_start] at h
  obtain ⟨b, h⟩ := h
  refine ⟨b.limits, fun limits hsteps hdepth => ?_⟩
  rw [BoundedM.start, h.run limits hsteps hdepth, outcome_finish]

namespace Noun

theorem steady_nock (a f : Noun) : Steady fun limits => outcome (nock limits a f) :=
  (accounted_evaluate a f).steady_start

theorem reaches_nock (a f : Noun) : (Reaches fun limits => outcome (nock limits a f)) = Ends a f :=
  (accounted_evaluate a f).reaches_start.trans (endsAs_evaluate a f)

end Noun
end NockDispatch
