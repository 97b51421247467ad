import NockDispatch.Proofs.Nest.Answer

/-!
# How often evaluation is entered

Computing an answer enters evaluation once to pull the nest arm, and once more to run the core,
provided that there is one. It cannot fail before the first time, since a check is only taken up
when `van` has a sample; nor in between, since a core that `ref` was put into has a battery.
-/

namespace NockDispatch.Nest

/-! ## Checks of nouns -/

/-- What a computation on a tally has come to. -/
def Tally.of : EStateM.Result NestError Tally α → Tally
  | .ok _ t => t
  | .error _ t => t

namespace TallyM

/-- The end of a computation from a number of entries on: it has entered evaluation `n` times and
leaves something good, or fails when it has done so `failed` times. -/
inductive Entered (start failed n : Nat) (good : α → Prop) :
    EStateM.Result NestError Tally α → Prop
  | ok {a t} : t.entries = start + n → good a → Entered start failed n good (.ok a t)
  | error {e t} : t.entries = start + failed → Entered start failed n good (.error e t)

def Enters (m : TallyM α) (failed n : Nat) (good : α → Prop) : Prop :=
  ∀ t, Entered t.entries failed n good (m t)

variable {m : TallyM α} {k : α → TallyM β} {failed n n' : Nat} {good : α → Prop}
  {good' : β → Prop}

theorem Enters.bind (hm : m.Enters (n + failed) n good)
    (hk : ∀ a, good a → (k a).Enters failed n' good') :
    (m >>= k).Enters (n + failed) (n + n') good' := by
  intro t
  have hfirst := hm t
  change Entered _ _ _ _ (EStateM.bind m k t)
  unfold EStateM.bind
  generalize m t = left at hfirst ⊢
  cases hfirst with
  | error ht => exact .error ht
  | @ok a t' ht ha =>
    have hnext := hk a ha t'
    dsimp only
    generalize k a t' = left at hnext ⊢
    cases hnext with
    | ok ht' hb => exact .ok (by omega) hb
    | error ht' => exact .error (by omega)

theorem Enters.first (hm : m.Enters failed 0 good)
    (hk : ∀ a, good a → (k a).Enters failed n good') : (m >>= k).Enters failed n good' := by
  have hm' : m.Enters (0 + failed) 0 good := by rwa [Nat.zero_add]
  have h := hm'.bind hk
  rwa [Nat.zero_add, Nat.zero_add] at h

theorem Enters.last (hm : m.Enters n n good)
    (hk : ∀ a, good a → (k a).Enters 0 0 good') : (m >>= k).Enters n n good' :=
  Enters.bind hm hk

theorem Enters.imp {good' : α → Prop} (hm : m.Enters failed n good) (h : ∀ a, good a → good' a) :
    m.Enters failed n good' := by
  intro t
  have hend := hm t
  generalize m t = left at hend ⊢
  cases hend with
  | ok ht ha => exact .ok ht (h _ ha)
  | error ht => exact .error ht

theorem enters_store (failed : Nat) (before : List Noun) (a : Noun) :
    (store before a).Enters failed 0 (· = a) :=
  fun _ => .ok rfl rfl

theorem enters_present (axis : UInt64) (found : Option Noun) :
    (present axis found).Enters 0 0 (found = some ·) := by
  intro t
  cases found with
  | none => exact .error rfl
  | some a => exact .ok rfl rfl

theorem enters_present_some (failed : Nat) (axis : UInt64) {found : Option Noun}
    (h : found.isSome) : (present axis found).Enters failed 0 (found = some ·) := by
  intro t
  cases found with
  | none => cases h
  | some a => exact .ok rfl rfl

theorem enters_edit (a : Noun) (axis : UInt64) (b : Noun) :
    (edit a axis b).Enters 0 0 (a.edit? axis.toNat b = some ·) :=
  (enters_present axis _).first fun _ hc _ => .ok rfl hc

theorem enters_edit_some (failed : Nat) {a : Noun} {axis : UInt64} (b : Noun)
    (h : (a.slot? axis.toNat).isSome) :
    (edit a axis b).Enters failed 0 (a.edit? axis.toNat b = some ·) :=
  (enters_present_some failed axis (by rwa [Noun.edit?_isSome])).first fun _ hc _ => .ok rfl hc

theorem enters_interpret (limits : Limits) (a f : Noun) :
    (interpret limits a f).Enters 1 1 fun _ => True := by
  intro t
  unfold interpret
  cases Noun.nock limits a f with
  | ok p l => exact .ok rfl trivial
  | error e l => exact .error rfl

end TallyM

/-- What something was put into at axis 13 has a battery. -/
theorem isSome_battery {a b core : Noun} (h : a.edit? 13 b = some core) :
    (core.slot? 2).isSome := by
  have hpath : Axis.path 13 = some [.tail, .head, .tail] := rfl
  rw [Noun.edit?, hpath] at h
  cases a with
  | atom n => cases h
  | cell c d =>
    obtain ⟨x, -, rfl⟩ := Option.map_eq_some_iff.mp h
    rw [Noun.slot?_two]
    rfl

namespace Terms

variable {terms : Terms}

theorem enters_buildCore (hfit : terms.Fit) (limits : Limits) (arm : UInt64) :
    (terms.buildCore limits arm).Enters 1 1 fun core => (core.slot? 2).isSome := by
  refine (TallyM.enters_edit_some 1 terms.sut hfit.2).first fun core _ => ?_
  refine (TallyM.enters_store 1 _ _).first fun formula _ => ?_
  refine (TallyM.enters_interpret limits core formula).last fun gate _ => ?_
  refine (TallyM.enters_edit gate Axis.sampleHead terms.tel).first fun gate _ => ?_
  exact (TallyM.enters_edit gate Axis.sampleTail terms.ref).imp fun _ => isSome_battery

theorem enters_invoke {core : Noun} (h : (core.slot? 2).isSome) (limits : Limits) :
    (invoke limits core).Enters 1 1 fun _ => True :=
  (TallyM.enters_present_some 1 Axis.battery h).first fun battery _ =>
    TallyM.enters_interpret limits core battery

/-- A check enters evaluation once if it fails to build a core, and twice otherwise. -/
theorem entries_compute (hfit : terms.Fit) (limits : Limits) (arm : UInt64) :
    (Tally.of (terms.compute limits arm ⟨[], 0⟩)).entries =
      match outcome (terms.buildCore limits arm ⟨[], 0⟩) with
      | .ok _ => 2
      | .error _ => 1 := by
  have hbuild := terms.enters_buildCore hfit limits arm ⟨[], 0⟩
  change Tally.entries (Tally.of (EStateM.bind _ _ _)) = _
  unfold EStateM.bind
  generalize terms.buildCore limits arm ⟨[], 0⟩ = left at hbuild ⊢
  cases hbuild with
  | error ht => exact ht
  | @ok core t ht hcore =>
    have hinvoke := enters_invoke hcore limits t
    dsimp only [outcome]
    generalize invoke limits core t = left at hinvoke ⊢
    cases hinvoke with
    | ok ht' _ => exact ht'.trans (congrArg (· + 1) ht)
    | error ht' => exact ht'.trans (congrArg (· + 1) ht)

end Terms

/-! ## Machines -/

/-- The end of a computation on a graph, as the end of one on a machine. -/
def Machine.left (entries : Nat) : Except NestError α × Graph → EStateM.Result NestError Machine α
  | (.ok answer, g) => .ok answer ⟨g, entries⟩
  | (.error error, g) => .error error ⟨g, entries⟩

variable {g : Graph} {args : Args} {terms : Terms} {settings : Settings}

theorem computeNest_eq (wf : g.WellFormed) (hd : args.Denotes g terms) (settings : Settings)
    (entries : Nat) :
    computeNest settings args ⟨g, entries⟩ = Machine.left
      (entries + (Tally.of (terms.compute settings.limits settings.nestArm ⟨[], 0⟩)).entries)
      (compute settings args g) := by
  have hrun : Agree _ _ _ (computeNest settings args ⟨g, entries⟩) _ :=
    follows_computeNest hd ⟨g, entries⟩ ⟨[], 0⟩ (.start wf) (.refl g)
  have hfirst : g.Leaves Tally.stored _ (compute settings args g) := leaves_compute wf hd
  generalize terms.compute settings.limits settings.nestArm ⟨[], 0⟩ = model at hrun hfirst ⊢
  generalize computeNest settings args ⟨g, entries⟩ = later at hrun ⊢
  generalize compute settings args g = left at hfirst ⊢
  cases hrun with
  | @ok p a machine t ht hext hp =>
    obtain ⟨graph, now⟩ := machine
    obtain ⟨rfl, wf', rfl⟩ := ht
    cases hfirst with
    | ok hp' => rw [hp.injective wf' hp']; rfl
  | @error e machine t ht hext =>
    obtain ⟨graph, now⟩ := machine
    obtain ⟨rfl, wf', rfl⟩ := ht
    cases hfirst with
    | error => rfl

end NockDispatch.Nest
