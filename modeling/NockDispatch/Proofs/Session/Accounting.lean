import Mathlib.Algebra.GroupWithZero.Nat
import NockDispatch.Proofs.Nest.Entries
import NockDispatch.Proofs.Nest.Expression
import NockDispatch.Proofs.Session.About
import NockDispatch.Proofs.Session.Binding

/-!
# The accounts of a dispatcher

A request takes one of five courses, and by its course it is known how often evaluation is
entered. What a memo counts is how often a request was well-formed and free to look its answer up,
how often the answer was not there, and how many answers the owner of the memo has computed then:
nothing is ever kept twice under one key.
-/

namespace NockDispatch.Nest

/-! ## Courses -/

/-- The way a request comes to its answer. -/
inductive Course where
  | malformed
  | found
  /-- The nest arm cannot be pulled, or there is no room for the arguments in what it gives. -/
  | unbuilt
  | failed
  | computed
deriving DecidableEq

def Course.entries : Course → Nat
  | malformed => 0
  | found => 0
  | unbuilt => 1
  | failed => 2
  | computed => 2

/-- What the answer is like at the end of a course. -/
def Course.Explains : Course → Except NestError NodeId → Prop
  | malformed, answer => ∃ e, answer = .error (.malformed e)
  | found, answer => ∃ p, answer = .ok p
  | unbuilt, answer => ∃ e, answer = .error (.interpreter e)
  | failed, answer => ∃ e, answer = .error (.interpreter e)
  | computed, answer => ∃ p, answer = .ok p

def courseOf (settings : Settings) (args : Args) (g : Graph) : Course :=
  match ((buildCore settings.limits settings.nestArm args).perform g).1,
    (compute settings args g).1 with
  | .error _, _ => .unbuilt
  | .ok _, .error _ => .failed
  | .ok _, .ok _ => .computed

def Inquiry.course (settings : Settings) (memo : Memo) (g : Graph) (inquiry : Inquiry) : Course :=
  match inquiry.take g with
  | .error _ => .malformed
  | .ok args =>
    if settings.cache && inquiry.mayFind &&
        (memo.get? g.id (keyOf g settings.keyAxis args)).isSome then .found
    else courseOf settings args g

/-- All that a request can do: its course, its answer, the memo and the graph that it leaves. -/
inductive Inquiry.Takes (settings : Settings) (memo : Memo) (g : Graph) (inquiry : Inquiry) :
    Course → Except NestError NodeId → Memo → Graph → Prop
  | malformed {e} : inquiry.take g = .error e →
      Takes settings memo g inquiry .malformed (.error (.malformed e)) memo g
  | found {args p} : inquiry.take g = .ok args → (settings.cache && inquiry.mayFind) = true →
      memo.get? g.id (keyOf g settings.keyAxis args) = some p →
      Takes settings memo g inquiry .found (.ok p) { memo with hits := memo.hits + 1 } g
  | direct {args} : inquiry.take g = .ok args → (settings.cache && inquiry.mayFind) = false →
      Takes settings memo g inquiry (courseOf settings args g) (compute settings args g).1 memo
        (compute settings args g).2
  | missed {args} : inquiry.take g = .ok args → (settings.cache && inquiry.mayFind) = true →
      memo.get? g.id (keyOf g settings.keyAxis args) = none →
      Takes settings memo g inquiry (courseOf settings args g) (compute settings args g).1
        (kept memo (keyOf g settings.keyAxis args) (compute settings args g))
        (compute settings args g).2

/-- The end of a request at a desk where evaluation was entered a number of times. -/
def Desk.left (entries : Nat) :
    Except NestError NodeId × Memo × Graph → EStateM.Result NestError Desk NodeId
  | (.ok answer, memo, g) => .ok answer ⟨memo, ⟨g, entries⟩⟩
  | (.error error, memo, g) => .error error ⟨memo, ⟨g, entries⟩⟩

variable {g : Graph} {args : Args} {settings : Settings} {inquiry : Inquiry} {memo : Memo}

theorem computeNest_entries (wf : g.WellFormed) (hfits : inquiry.Fits g)
    (htake : inquiry.take g = .ok args) (settings : Settings) (entries : Nat) :
    computeNest settings args ⟨g, entries⟩ =
      Machine.left (entries + (courseOf settings args g).entries) (compute settings args g) := by
  obtain ⟨terms, hd⟩ := (Inquiry.stored_take wf hfits.stored htake).exists_denotes wf
  rw [computeNest_eq wf hd, Terms.entries_compute (Inquiry.fit_of_take hfits htake hd)]
  have hbuild := (leaves_buildCore wf hd settings.limits settings.nestArm).means
  generalize terms.buildCore settings.limits settings.nestArm ⟨[], 0⟩ = model at hbuild ⊢
  unfold courseOf
  generalize (buildCore settings.limits settings.nestArm args).perform g = left at hbuild ⊢
  cases model with
  | ok a t =>
    obtain ⟨core, hcore⟩ := hbuild.eq_ok
    rw [hcore]
    cases (compute settings args g).1 <;> rfl
  | error e t =>
    rw [hbuild.error_iff.mpr rfl]
    rfl

theorem courseOf_ne (settings : Settings) (args : Args) (g : Graph) :
    courseOf settings args g ≠ .malformed ∧ courseOf settings args g ≠ .found := by
  unfold courseOf
  split <;> simp

/-- A check without a core fails, and every failure is one of evaluation. -/
theorem courseOf_explains (wf : g.WellFormed) (hs : args.Stored g) (settings : Settings) :
    (courseOf settings args g).Explains (compute settings args g).1 := by
  obtain ⟨terms, hd⟩ := hs.exists_denotes wf
  have hanswer : Means (compute settings args g) _ := means_compute wf hd
  have hbuild := (leaves_buildCore wf hd settings.limits settings.nestArm).means
  rw [Terms.verdict_eq] at hanswer
  rw [Terms.buildCore_reports settings.limits settings.nestArm terms ⟨[], 0⟩] at hbuild
  unfold courseOf
  cases hcore : terms.core settings.limits settings.nestArm with
  | error e =>
    have hall : terms.answer settings.limits settings.nestArm = .error e := by
      rw [Terms.answer, hcore]
      rfl
    rw [hcore] at hbuild
    rw [hall] at hanswer
    rw [hbuild.error_iff.mpr rfl]
    exact ⟨e, hanswer.error_iff.mpr rfl⟩
  | ok core =>
    rw [hcore] at hbuild
    obtain ⟨id, hid⟩ := hbuild.eq_ok
    rw [hid]
    cases hend : terms.answer settings.limits settings.nestArm with
    | ok a =>
      rw [hend] at hanswer
      obtain ⟨p, hp⟩ := hanswer.eq_ok
      rw [hp]
      exact ⟨p, rfl⟩
    | error e =>
      rw [hend] at hanswer
      rw [hanswer.error_iff.mpr rfl]
      exact ⟨_, rfl⟩

theorem courseOf_eq_computed (wf : g.WellFormed) (hs : args.Stored g) {p : NodeId}
    (hp : (compute settings args g).1 = .ok p) : courseOf settings args g = .computed := by
  have hexplains := courseOf_explains wf hs settings
  obtain ⟨hfit, habsent⟩ := courseOf_ne settings args g
  rw [hp] at hexplains
  cases hcourse : courseOf settings args g with
  | malformed => exact absurd hcourse hfit
  | found => exact absurd hcourse habsent
  | unbuilt | failed =>
    rw [hcourse] at hexplains
    obtain ⟨e, he⟩ := hexplains
    cases he
  | computed => rfl

theorem nestDirect_entries (wf : g.WellFormed) (hfits : inquiry.Fits g)
    (htake : inquiry.take g = .ok args) (settings : Settings) (memo : Memo) (entries : Nat) :
    nestDirect settings args ⟨memo, ⟨g, entries⟩⟩ =
      Desk.left (entries + (courseOf settings args g).entries)
        ((compute settings args g).1, memo, (compute settings args g).2) := by
  rw [nestDirect, DeskM.compute_eq, computeNest_entries wf hfits htake]
  generalize compute settings args g = left
  obtain ⟨_ | _, h⟩ := left <;> rfl

namespace Inquiry

theorem answer_malformed {e : CallError} (htake : inquiry.take g = .error e) (settings : Settings)
    (memo : Memo) (entries : Nat) :
    inquiry.answer settings ⟨memo, ⟨g, entries⟩⟩ =
      Desk.left entries (.error (.malformed e), memo, g) := by
  rw [answer_eq, bind_apply, takeArgs_eq, htake]
  rfl

theorem answer_fit (htake : inquiry.take g = .ok args) (settings : Settings) (memo : Memo)
    (entries : Nat) :
    inquiry.answer settings ⟨memo, ⟨g, entries⟩⟩ =
      (if inquiry.mayFind then Nest.nest settings args else Nest.nestDirect settings args)
        ⟨memo, ⟨g, entries⟩⟩ := by
  rw [answer_eq, bind_apply, takeArgs_eq, htake]

theorem answer_direct (wf : g.WellFormed) (hfits : inquiry.Fits g)
    (htake : inquiry.take g = .ok args) (hfree : (settings.cache && inquiry.mayFind) = false)
    (memo : Memo) (entries : Nat) :
    inquiry.answer settings ⟨memo, ⟨g, entries⟩⟩ =
      Desk.left (entries + (courseOf settings args g).entries)
        ((compute settings args g).1, memo, (compute settings args g).2) := by
  rw [answer_fit htake, ← nestDirect_entries wf hfits htake settings]
  cases hfind : inquiry.mayFind with
  | false => rfl
  | true =>
    have hc : settings.cache = false := by rwa [hfind, Bool.and_true] at hfree
    rw [if_pos rfl, Nest.nest, hc]
    rfl

theorem answer_found {p : NodeId} (htake : inquiry.take g = .ok args)
    (hfree : (settings.cache && inquiry.mayFind) = true)
    (hp : memo.get? g.id (keyOf g settings.keyAxis args) = some p) (entries : Nat) :
    inquiry.answer settings ⟨memo, ⟨g, entries⟩⟩ =
      Desk.left entries (.ok p, { memo with hits := memo.hits + 1 }, g) := by
  obtain ⟨hc, hfind⟩ := Bool.and_eq_true_iff.mp hfree
  simp only [answer_fit htake, hfind, if_true, nest_eq hc, Memo.find, hp]
  rfl

theorem answer_missed (wf : g.WellFormed) (hfits : inquiry.Fits g)
    (htake : inquiry.take g = .ok args) (hfree : (settings.cache && inquiry.mayFind) = true)
    (hp : memo.get? g.id (keyOf g settings.keyAxis args) = none) (entries : Nat) :
    inquiry.answer settings ⟨memo, ⟨g, entries⟩⟩ =
      Desk.left (entries + (courseOf settings args g).entries)
        ((compute settings args g).1,
          kept memo (keyOf g settings.keyAxis args) (compute settings args g),
          (compute settings args g).2) := by
  obtain ⟨hc, hfind⟩ := Bool.and_eq_true_iff.mp hfree
  simp only [answer_fit htake, hfind, if_true, nest_eq hc, Memo.find, hp]
  rw [bind_apply, nestDirect_entries wf hfits htake]
  generalize compute settings args g = left
  obtain ⟨_ | _, h⟩ := left <;> rfl

theorem course_malformed {e : CallError} (htake : inquiry.take g = .error e) (settings : Settings)
    (memo : Memo) : inquiry.course settings memo g = .malformed := by
  rw [course, htake]

theorem course_found {p : NodeId} (htake : inquiry.take g = .ok args)
    (hfree : (settings.cache && inquiry.mayFind) = true)
    (hp : memo.get? g.id (keyOf g settings.keyAxis args) = some p) :
    inquiry.course settings memo g = .found := by
  simp [course, htake, hfree, hp]

theorem course_missed (htake : inquiry.take g = .ok args)
    (hp : memo.get? g.id (keyOf g settings.keyAxis args) = none) :
    inquiry.course settings memo g = courseOf settings args g := by
  simp [course, htake, hp]

/-- What a request does is what its course says, and so is how often it enters evaluation. -/
theorem exists_takes (wf : g.WellFormed) (hfits : inquiry.Fits g)
    (settings : Settings) (memo : Memo) :
    ∃ answer memo' h,
      inquiry.Takes settings memo g (inquiry.course settings memo g) answer memo' h ∧
      ∀ entries, inquiry.answer settings ⟨memo, ⟨g, entries⟩⟩ =
        Desk.left (entries + (inquiry.course settings memo g).entries) (answer, memo', h) := by
  cases htake : inquiry.take g with
  | error e =>
    rw [course_malformed htake]
    exact ⟨_, _, _, .malformed htake, answer_malformed htake settings memo⟩
  | ok args =>
    cases hfree : settings.cache && inquiry.mayFind with
    | false =>
      have hcourse : inquiry.course settings memo g = courseOf settings args g := by
        simp [course, htake, hfree]
      rw [hcourse]
      exact ⟨_, _, _, .direct htake hfree, answer_direct wf hfits htake hfree memo⟩
    | true =>
      cases hp : memo.get? g.id (keyOf g settings.keyAxis args) with
      | some p =>
        rw [course_found htake hfree hp]
        exact ⟨_, _, _, .found htake hfree hp, answer_found htake hfree hp⟩
      | none =>
        rw [course_missed htake hp]
        exact ⟨_, _, _, .missed htake hfree hp, answer_missed wf hfits htake hfree hp⟩

end Inquiry

/-! ## Requests and what a memo counts of them -/

structure Request where
  graph : GraphId
  inquiry : Inquiry
  course : Course
  answer : Except NestError NodeId

namespace Request

/-- Whether a request is well-formed and may be answered from a memo. -/
def looksUp (x : Request) : Bool := x.inquiry.mayFind && x.course != .malformed

/-- Whether the answer might have been in the memo, but is not. -/
def misses (x : Request) : Bool := x.looksUp && x.course != .found

/-- Whether a missing answer was computed on behalf of the owner of a memo. -/
def keeps (owner : Option GraphId) (x : Request) : Bool :=
  x.misses && x.answer.isOk && owner == some x.graph

theorem countP_snoc (counts : Request → Bool) (requests : List Request) (x : Request) :
    (requests ++ [x]).countP counts = requests.countP counts + (counts x).toNat := by
  rw [List.countP_append, List.countP_singleton]
  cases counts x <;> rfl

end Request

/-- The counts of a memo that was used for some requests and for nothing else. -/
structure Accounts (memo : Memo) (requests : List Request) : Prop where
  asked : memo.hits + memo.misses = requests.countP Request.looksUp
  missed : memo.misses = requests.countP Request.misses
  stores : memo.stores = memo.table.size
  entries : memo.table.size = requests.countP (Request.keeps memo.owner)
  unowned : memo.owner = none → ∀ x ∈ requests, (x.misses && x.answer.isOk) = false

theorem accounts_empty : Accounts .empty [] := ⟨rfl, rfl, rfl, rfl, fun _ _ h => nomatch h⟩

variable {requests : List Request} {x : Request}

theorem Accounts.add {memo' : Memo} (h : Accounts memo requests) (howner : memo'.owner = memo.owner)
    (htable : memo'.table = memo.table) (hstores : memo'.stores = memo.stores)
    (hasked : memo'.hits + memo'.misses = memo.hits + memo.misses + x.looksUp.toNat)
    (hmissed : memo'.misses = memo.misses + x.misses.toNat)
    (hx : (x.misses && x.answer.isOk) = true → ∃ o, memo.owner = some o ∧ o ≠ x.graph) :
    Accounts memo' (requests ++ [x]) := by
  have hkeeps : x.keeps memo.owner = false := by
    rw [Request.keeps]
    cases hmisses : x.misses && x.answer.isOk with
    | false => rfl
    | true =>
      obtain ⟨o, ho, hne⟩ := hx hmisses
      simp [ho, hne]
  refine ⟨?_, ?_, ?_, ?_, fun hnone y hy => ?_⟩
  · rw [hasked, h.asked, Request.countP_snoc]
  · rw [hmissed, h.missed, Request.countP_snoc]
  · rw [hstores, htable, h.stores]
  · rw [howner, htable, h.entries, Request.countP_snoc, hkeeps]
    rfl
  · rw [howner] at hnone
    rcases List.mem_append.mp hy with hy | hy
    · exact h.unowned hnone y hy
    · rw [List.mem_singleton.mp hy]
      cases hmisses : x.misses && x.answer.isOk with
      | false => rfl
      | true =>
        obtain ⟨o, ho, -⟩ := hx hmisses
        cases hnone.symm.trans ho

theorem Accounts.entries_of_serves {id : GraphId} (h : Accounts memo requests)
    (hserves : memo.serves id = true) :
    memo.table.size = requests.countP (Request.keeps (some id)) := by
  rw [h.entries]
  cases howner : memo.owner with
  | some o => rw [(Memo.serves_iff memo id).mp hserves o howner]
  | none =>
    refine List.countP_congr fun y hy => ?_
    rw [Request.keeps, Request.keeps, h.unowned howner y hy]
    simp

theorem Accounts.save {key : Memo.Key} {p : NodeId} (h : Accounts memo requests)
    (hx : x.looksUp = true) (hmisses : x.misses = true) (hok : x.answer.isOk = true)
    (hserves : memo.serves x.graph = true) (hp : memo.get? x.graph key = none) :
    Accounts ({ memo with misses := memo.misses + 1 }.save x.graph key p) (requests ++ [x]) := by
  have hnew : key ∉ memo.table := by
    rw [Memo.get?, if_pos hserves] at hp
    intro hmem
    have hsome := Std.HashMap.isSome_getElem?_iff_mem.mpr hmem
    rw [hp] at hsome
    cases hsome
  have hsize : (memo.table.insert key p).size = memo.table.size + 1 := by
    rw [Std.HashMap.size_insert, if_neg hnew]
  have hkeeps : x.keeps (some x.graph) = true := by simp [Request.keeps, hmisses, hok]
  have hserves' : ({ memo with misses := memo.misses + 1 } : Memo).serves x.graph = true := hserves
  rw [Memo.save, if_pos hserves']
  refine ⟨?_, ?_, ?_, ?_, fun hnone => absurd hnone (Option.some_ne_none _)⟩
  · rw [Request.countP_snoc, hx, ← h.asked]
    rfl
  · rw [Request.countP_snoc, hmisses, ← h.missed]
    rfl
  · exact (congrArg (· + 1) h.stores).trans hsize.symm
  · rw [Request.countP_snoc, hkeeps, ← h.entries_of_serves hserves]
    exact hsize

theorem Accounts.miss {key : Memo.Key} {left : Except NestError NodeId × Graph}
    (h : Accounts memo requests) (hx : x.looksUp = true) (hmisses : x.misses = true)
    (hgraph : x.graph = left.2.id) (hanswer : x.answer = left.1)
    (hp : memo.get? x.graph key = none) : Accounts (kept memo key left) (requests ++ [x]) := by
  obtain ⟨answer, k⟩ := left
  have hasked : memo.hits + (memo.misses + 1) = memo.hits + memo.misses + x.looksUp.toNat := by
    rw [hx]
    rfl
  have hmissed : memo.misses + 1 = memo.misses + x.misses.toNat := by rw [hmisses, Bool.toNat_true]
  cases answer with
  | error e =>
    refine h.add rfl rfl rfl hasked hmissed fun hok => ?_
    simp [hanswer, Except.isOk, Except.toBool] at hok
  | ok p =>
    rw [kept, ← hgraph]
    by_cases hserves : memo.serves x.graph = true
    · exact h.save hx hmisses (by rw [hanswer]; rfl) hserves hp
    · have hforeign : ∃ o, memo.owner = some o ∧ o ≠ x.graph := by
        simpa [Memo.serves_iff] using hserves
      have hserves' : ¬ ({ memo with misses := memo.misses + 1 } : Memo).serves x.graph = true :=
        hserves
      rw [Memo.save, if_neg hserves']
      exact h.add rfl rfl rfl hasked hmissed fun _ => hforeign

/-- One more request is counted as it should be. -/
theorem Accounts.ask {course : Course} {answer : Except NestError NodeId} {memo' : Memo} {h : Graph}
    (ha : Accounts memo requests) (hc : settings.cache = true) (hgrow : g.Grows h)
    (ht : inquiry.Takes settings memo g course answer memo' h) :
    Accounts memo' (requests ++ [⟨g.id, inquiry, course, answer⟩]) := by
  cases ht with
  | malformed _ =>
    refine ha.add rfl rfl rfl ?_ ?_ fun hkept => ?_
    · simp [Request.looksUp]
    · simp [Request.misses, Request.looksUp]
    · simp [Request.misses, Request.looksUp] at hkept
  | found _ hfree _ =>
    have hfind := (Bool.and_eq_true_iff.mp hfree).2
    refine ha.add rfl rfl rfl ?_ ?_ fun hkept => ?_
    · simp only [Request.looksUp, hfind]
      exact Nat.succ_add _ _
    · simp [Request.misses]
    · simp [Request.misses] at hkept
  | direct _ hfree =>
    have hfind : inquiry.mayFind = false := by rwa [hc, Bool.true_and] at hfree
    refine ha.add rfl rfl rfl ?_ ?_ fun hkept => ?_
    · simp [Request.looksUp, hfind]
    · simp [Request.misses, Request.looksUp, hfind]
    · simp [Request.misses, Request.looksUp, hfind] at hkept
  | @missed args _ hfree hp =>
    have hfind := (Bool.and_eq_true_iff.mp hfree).2
    obtain ⟨hfit, habsent⟩ := courseOf_ne settings args g
    refine ha.miss ?_ ?_ hgrow.id_eq.symm rfl hp
    · simp [Request.looksUp, hfind, hfit]
    · simp [Request.misses, Request.looksUp, hfind, hfit, habsent]

/-! ## Histories -/

/-- What a dispatcher works on over time: graphs, a memo, and a count of entries into evaluation. -/
structure Register where
  workspace : Workspace
  memo : Memo
  entries : Nat

/-- All requests that were made to a dispatcher, those of them since the last reset of the count,
and what they have led to. In between, graphs may grow, and new graphs and copies may be added. -/
inductive Served (settings : Settings) : List Request → List Request → Register → Prop
  | start {w : Workspace} : w.Sound → Served settings [] [] ⟨w, .empty, 0⟩
  | grow {all recent : List Request} {w v : Workspace} {memo : Memo} {entries : Nat} :
      Served settings all recent ⟨w, memo, entries⟩ → w.Grows v → v.Sound →
      Served settings all recent ⟨v, memo, entries⟩
  | reset {all recent : List Request} {w : Workspace} {memo : Memo} {entries : Nat} :
      Served settings all recent ⟨w, memo, entries⟩ → Served settings all [] ⟨w, memo, 0⟩
  | ask {all recent : List Request} {w : Workspace} {memo memo' : Memo} {entries entries' : Nat}
      {id : GraphId} {g h : Graph} {inquiry : Inquiry} {answer : Except NestError NodeId} :
      Served settings all recent ⟨w, memo, entries⟩ → w.graph? id = some g →
      inquiry.Fits g →
      inquiry.answer settings ⟨memo, ⟨g, entries⟩⟩ = Desk.left entries' (answer, memo', h) →
      Served settings (all ++ [⟨g.id, inquiry, inquiry.course settings memo g, answer⟩])
        (recent ++ [⟨g.id, inquiry, inquiry.course settings memo g, answer⟩])
        ⟨w.put id h, memo', entries'⟩

theorem Desk.left_inj {entries entries' : Nat}
    {left left' : Except NestError NodeId × Memo × Graph}
    (h : Desk.left entries left = Desk.left entries' left') :
    entries = entries' ∧ left = left' := by
  obtain ⟨_ | _, memo, g⟩ := left <;> obtain ⟨_ | _, memo', g'⟩ := left' <;> cases h <;>
    exact ⟨rfl, rfl⟩

variable {all recent : List Request} {s : Register}

theorem Inquiry.Takes.explains {course : Course} {answer : Except NestError NodeId} {memo' : Memo}
    {h : Graph} (wf : g.WellFormed) (hfits : inquiry.Fits g)
    (ht : inquiry.Takes settings memo g course answer memo' h) : course.Explains answer := by
  cases ht with
  | malformed _ => exact ⟨_, rfl⟩
  | found _ _ _ => exact ⟨_, rfl⟩
  | direct htake _ => exact courseOf_explains wf (stored_take wf hfits.stored htake) settings
  | missed htake _ _ => exact courseOf_explains wf (stored_take wf hfits.stored htake) settings

theorem Inquiry.Takes.grows {course : Course} {answer : Except NestError NodeId} {memo' : Memo}
    {h : Graph} (wf : g.WellFormed) (hfits : inquiry.Fits g)
    (ht : inquiry.Takes settings memo g course answer memo' h) : g.Grows h := by
  cases ht with
  | malformed _ => exact .refl wf
  | found _ _ _ => exact .refl wf
  | direct htake _ => exact grows_compute wf (stored_take wf hfits.stored htake)
  | missed htake _ _ => exact grows_compute wf (stored_take wf hfits.stored htake)

/-- A request that is malformed or direct leaves the memo alone, and so does every request when the
cache is off. -/
theorem Inquiry.Takes.memo_eq {course : Course} {answer : Except NestError NodeId} {memo' : Memo}
    {h : Graph} (ht : inquiry.Takes settings memo g course answer memo' h)
    (hfree : (settings.cache && inquiry.mayFind) = false ∨ course = .malformed) : memo' = memo := by
  cases ht with
  | malformed _ => rfl
  | found _ htrue _ => simp [htrue] at hfree
  | direct _ _ => rfl
  | @missed args _ htrue _ => simp [htrue, (courseOf_ne settings args g).1] at hfree

theorem Inquiry.takes_of_answer {answer : Except NestError NodeId} {memo' : Memo} {h : Graph}
    {entries entries' : Nat} (wf : g.WellFormed) (hfits : inquiry.Fits g)
    (hrun : inquiry.answer settings ⟨memo, ⟨g, entries⟩⟩ = Desk.left entries' (answer, memo', h)) :
    entries' = entries + (inquiry.course settings memo g).entries ∧
      inquiry.Takes settings memo g (inquiry.course settings memo g) answer memo' h := by
  obtain ⟨answer', memo'', h', ht, hall⟩ := inquiry.exists_takes wf hfits settings memo
  obtain ⟨rfl, heq⟩ := Desk.left_inj (hrun.symm.trans (hall entries))
  cases heq
  exact ⟨rfl, ht⟩

namespace Served

theorem sound (h : Served settings all recent s) : s.workspace.Sound := by
  induction h with
  | start hw => exact hw
  | grow _ _ hv => exact hv
  | reset _ ih => exact ih
  | ask _ hg hfits hrun ih =>
    have ht := (Inquiry.takes_of_answer (ih.wellFormed hg) hfits hrun).2
    exact ih.put hg (ht.grows (ih.wellFormed hg) hfits)

theorem entries_eq (h : Served settings all recent s) :
    s.entries = (recent.map (·.course.entries)).sum := by
  induction h with
  | start _ => rfl
  | grow _ _ _ ih => exact ih
  | reset _ _ => rfl
  | ask hpast hg hfits hrun ih =>
    have hentries := (Inquiry.takes_of_answer (hpast.sound.wellFormed hg) hfits hrun).1
    rw [List.map_append, List.sum_append, ← ih]
    exact hentries

theorem explains (h : Served settings all recent s) : ∀ x ∈ all, x.course.Explains x.answer := by
  induction h with
  | start _ => exact fun _ hx => nomatch hx
  | grow _ _ _ ih => exact ih
  | reset _ ih => exact ih
  | ask hpast hg hfits hrun ih =>
    have wf := hpast.sound.wellFormed hg
    have ht := (Inquiry.takes_of_answer wf hfits hrun).2
    exact List.forall_mem_append.mpr ⟨ih, List.forall_mem_singleton.mpr (ht.explains wf hfits)⟩

theorem accounts (h : Served settings all recent s) (hc : settings.cache = true) :
    Accounts s.memo all := by
  induction h with
  | start _ => exact accounts_empty
  | grow _ _ _ ih => exact ih
  | reset _ ih => exact ih
  | ask hpast hg hfits hrun ih =>
    have wf := hpast.sound.wellFormed hg
    have ht := (Inquiry.takes_of_answer wf hfits hrun).2
    exact ih.ask hc (ht.grows wf hfits) ht

/-- The accounts of a dispatcher. Evaluation was entered as often as the courses of all requests
since the last reset say, and each course explains its answer. A request that is malformed or
direct leaves the memo as it is, and so does every request when the cache is off. When it is on,
hits and misses are the requests that looked something up, misses are those of them whose answer
was not there, and as many answers are kept as the owner of the memo has missed and computed, each
of them once. -/
theorem accounted (h : Served settings all recent s) :
    s.entries = (recent.map (·.course.entries)).sum ∧
    (∀ x ∈ all, x.course.Explains x.answer) ∧
    (∀ id g (inquiry : Inquiry), s.workspace.graph? id = some g →
      inquiry.Fits g →
      ∃ answer memo' k, inquiry.answer settings ⟨s.memo, ⟨g, s.entries⟩⟩ =
          Desk.left (s.entries + (inquiry.course settings s.memo g).entries) (answer, memo', k) ∧
        (inquiry.course settings s.memo g).Explains answer ∧
        (settings.cache = false ∨ inquiry.mayFind = false ∨
          inquiry.course settings s.memo g = .malformed → memo' = s.memo)) ∧
    (settings.cache = true →
      s.memo.stats.hits + s.memo.stats.misses = all.countP Request.looksUp ∧
      s.memo.stats.misses = all.countP Request.misses ∧
      s.memo.stats.stores = s.memo.stats.entries ∧
      s.memo.stats.entries = all.countP (Request.keeps s.memo.owner)) := by
  refine ⟨h.entries_eq, h.explains, fun id g inquiry hg hfits => ?_, fun hc => ?_⟩
  · have wf := h.sound.wellFormed hg
    obtain ⟨answer, memo', k, ht, hrun⟩ := inquiry.exists_takes wf hfits settings s.memo
    refine ⟨answer, memo', k, hrun s.entries, ht.explains wf hfits, fun hquiet => ht.memo_eq ?_⟩
    rcases hquiet with hc | hdirect | hmalformed
    · exact .inl (by rw [hc, Bool.false_and])
    · exact .inl (by rw [hdirect, Bool.and_false])
    · exact .inr hmalformed
  · have ha := h.accounts hc
    exact ⟨ha.asked, ha.missed, ha.stores, ha.entries⟩

section Asking

variable {w : Workspace} {entries : Nat} {id : GraphId} {p : NodeId}

theorem ask_malformed {e : CallError} (h : Served settings all recent ⟨w, memo, entries⟩)
    (hg : w.graph? id = some g) (hfits : inquiry.Fits g) (htake : inquiry.take g = .error e) :
    Served settings (all ++ [⟨g.id, inquiry, .malformed, .error (.malformed e)⟩])
      (recent ++ [⟨g.id, inquiry, .malformed, .error (.malformed e)⟩])
      ⟨w.put id g, memo, entries⟩ := by
  have hserved := h.ask hg hfits (Inquiry.answer_malformed htake settings memo entries)
  rwa [Inquiry.course_malformed htake] at hserved

theorem ask_found (h : Served settings all recent ⟨w, memo, entries⟩)
    (hg : w.graph? id = some g) (hfits : inquiry.Fits g) (htake : inquiry.take g = .ok args)
    (hfree : (settings.cache && inquiry.mayFind) = true)
    (hp : memo.get? g.id (keyOf g settings.keyAxis args) = some p) :
    Served settings (all ++ [⟨g.id, inquiry, .found, .ok p⟩])
      (recent ++ [⟨g.id, inquiry, .found, .ok p⟩])
      ⟨w.put id g, { memo with hits := memo.hits + 1 }, entries⟩ := by
  have hserved := h.ask hg hfits (Inquiry.answer_found htake hfree hp entries)
  rwa [Inquiry.course_found htake hfree hp] at hserved

theorem ask_computed {k : Graph} (h : Served settings all recent ⟨w, memo, entries⟩)
    (hg : w.graph? id = some g) (hfits : inquiry.Fits g) (htake : inquiry.take g = .ok args)
    (hfree : (settings.cache && inquiry.mayFind) = true)
    (hmissed : memo.get? g.id (keyOf g settings.keyAxis args) = none)
    (hp : compute settings args g = (.ok p, k)) :
    Served settings (all ++ [⟨g.id, inquiry, .computed, .ok p⟩])
      (recent ++ [⟨g.id, inquiry, .computed, .ok p⟩])
      ⟨w.put id k, kept memo (keyOf g settings.keyAxis args) (.ok p, k), entries + 2⟩ := by
  have wf := h.sound.wellFormed hg
  have hcomputed : courseOf settings args g = .computed :=
    courseOf_eq_computed wf (Inquiry.stored_take wf hfits.stored htake) (congrArg Prod.fst hp)
  have hserved := h.ask hg hfits (Inquiry.answer_missed wf hfits htake hfree hmissed entries)
  rwa [Inquiry.course_missed htake hmissed, hcomputed, hp] at hserved

end Asking

/-- A check that gives 5 is asked for twice, and then an atom is called. Only the first request
enters evaluation, and does so twice: its answer is missed, kept, and found the second time. -/
theorem accounted_five :
    let placed := Terms.answeredFive.place (.empty ⟨0⟩)
    let settings := { Settings.standard with limits := ⟨10, 10⟩ }
    ∃ p requests s, requests =
        [⟨⟨0⟩, .nest placed.1, .computed, .ok p⟩, ⟨⟨0⟩, .nest placed.1, .found, .ok p⟩,
          ⟨⟨0⟩, .call placed.1.sut, .malformed,
            .error (.malformed (.missingAxis Axis.sampleHead))⟩] ∧
      Served settings requests requests s ∧ s.entries = 2 ∧ s.memo.stats.hits = 1 ∧
      s.memo.stats.misses = 1 ∧ s.memo.stats.stores = 1 ∧ s.memo.stats.entries = 1 := by
  intro placed settings
  obtain ⟨hgrow, hd⟩ := Terms.answeredFive.grows_place (Graph.wellFormed_empty ⟨0⟩)
  have hnew : Workspace.empty.create.2.graph? ⟨0⟩ = some (.empty ⟨0⟩) := rfl
  have hg : (Workspace.empty.create.2.put ⟨0⟩ placed.2).graph? ⟨0⟩ = some placed.2 := by
    rw [Workspace.graph?_put hnew, if_pos rfl]
  have hstart : Served settings [] [] _ := .start (sound_empty.create.put hnew hgrow)
  have hfit : Terms.answeredFive.Fit := ⟨⟨true, rfl⟩, rfl⟩
  have hanswer : Terms.answeredFive.answer ⟨10, 10⟩ Axis.battery = .ok (.atom 5) := by rfl
  have hmeans : Means (compute settings placed.1 placed.2) _ := means_compute hgrow.wellFormed hd
  rw [Terms.verdict_eq] at hmeans
  obtain ⟨p, hp⟩ := (hmeans.ok_iff.mpr (mapError_interpreter_inj.mpr hanswer)).imp fun _ => And.left
  have hgrow' : placed.2.Grows (compute settings placed.1 placed.2).2 :=
    grows_compute hgrow.wellFormed hd.stored
  generalize hleft : compute settings placed.1 placed.2 = left at hp hgrow'
  obtain ⟨answer, k⟩ := left
  cases hp
  have hid : k.id = ⟨0⟩ := hgrow'.id_eq.trans hgrow.id_eq
  have hfirst := hstart.ask_computed hg ((Inquiry.About.nest hd).fits hfit) rfl rfl
    (Memo.get?_empty placed.2.id (keyOf placed.2 settings.keyAxis placed.1)) hleft
  have hk := Workspace.graph?_put hg k ⟨0⟩
  rw [if_pos rfl] at hk
  have hd' := hd.extend hgrow'.extend
  have hfound : (kept .empty (keyOf placed.2 settings.keyAxis placed.1) (.ok p, k)).get? k.id
      (keyOf k settings.keyAxis placed.1) = some p := by
    rw [keyOf_extend hgrow'.extend hd]
    exact (Memo.get?_save_self rfl _ _ p).trans (if_pos rfl)
  have hsecond := hfirst.ask_found hk ((Inquiry.About.nest hd').fits hfit) rfl rfl hfound
  have hmissing : k.wordSlot? placed.1.sut Axis.sampleHead = none := by
    rw [Graph.wordSlot?_eq]
    exact hd'.sut.slot?_none rfl
  have htake : (Inquiry.call placed.1.sut).take k = .error (.missingAxis Axis.sampleHead) := by
    simp only [Inquiry.take, Args.ofGate, Args.slotOf, hmissing, bind, Except.bind]
  have hfits : (Inquiry.call placed.1.sut).Fits k :=
    ⟨List.forall_mem_singleton.mpr hd'.sut.stored, List.forall_mem_nil _⟩
  have hthird := hsecond.ask_malformed
    ((Workspace.graph?_put hk k ⟨0⟩).trans (if_pos rfl)) hfits htake
  rw [hgrow.id_eq, hid] at hthird
  obtain ⟨hentries, -, -, hcounts⟩ := hthird.accounted
  obtain ⟨hasked, hmisses, hstores, hkept⟩ := hcounts rfl
  have howner : (kept .empty (keyOf placed.2 settings.keyAxis placed.1) (.ok p, k)).owner =
      some ⟨0⟩ := congrArg some hid
  rw [howner] at hkept
  refine ⟨p, _, _, rfl, hthird, hentries, ?_, hmisses, hstores.trans hkept, hkept⟩
  exact Nat.add_right_cancel (hasked.trans (congrArg (1 + ·) hmisses.symm))

end Served

end NockDispatch.Nest
