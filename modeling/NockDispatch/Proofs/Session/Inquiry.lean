import NockDispatch.Proofs.Nest.Answer

/-!
# Inquiries

An inquiry is a request to a dispatcher by one of its four entry points. A gate is taken apart
first, so that a malformed inquiry fails before anything is done. The nouns that a nest check is
given one by one were taken from the graph before.
-/

namespace NockDispatch.Nest

inductive Inquiry where
  | call (gate : NodeId)
  | callDirect (gate : NodeId)
  | nest (args : Args)
  | nestDirect (args : Args)

/-- Ids of a graph, and nouns of nest checks that were taken from it. -/
structure Given (g : Graph) (ids : List NodeId) (taken : List Args) : Prop where
  stored : ∀ id ∈ ids, g.Stored id
  taken : ∀ args ∈ taken, args.TakenFrom g

instance (g : Graph) (ids : List NodeId) (taken : List Args) : Decidable (Given g ids taken) :=
  decidable_of_iff ((∀ id ∈ ids, g.Stored id) ∧ ∀ args ∈ taken, args.TakenFrom g)
    ⟨fun h => ⟨h.1, h.2⟩, fun h => ⟨h.stored, h.taken⟩⟩

theorem Args.Denotes.given {g : Graph} {args : Args} {terms : Terms} (hd : args.Denotes g terms)
    (hf : terms.Fit) : Given g args.ids [args] :=
  ⟨Args.stored_iff.mp hd.stored, List.forall_mem_singleton.mpr
    (Args.takenFrom_iff.mpr (Args.ofParts_of_denotes hd hf))⟩

namespace Inquiry

def ids : Inquiry → List NodeId
  | call gate | callDirect gate => [gate]
  | nest args | nestDirect args => args.ids

def taken : Inquiry → List Args
  | call _ | callDirect _ => []
  | nest args | nestDirect args => [args]

def Fits (g : Graph) (inquiry : Inquiry) : Prop := Given g inquiry.ids inquiry.taken

def take : Inquiry → Graph → Except CallError Args
  | call gate, g | callDirect gate, g => Args.ofGate g gate
  | nest args, _ | nestDirect args, _ => .ok args

/-- The same inquiry by the entry point that never uses the memo. -/
def direct : Inquiry → Inquiry
  | call gate | callDirect gate => callDirect gate
  | nest args | nestDirect args => nestDirect args

def mayFind : Inquiry → Bool
  | call _ | nest _ => true
  | callDirect _ | nestDirect _ => false

def answer (settings : Settings) : Inquiry → DeskM NodeId
  | call gate => Nest.call settings gate
  | callDirect gate => Nest.callDirect settings gate
  | nest args => Nest.nest settings args
  | nestDirect args => Nest.nestDirect settings args

variable {g : Graph} {settings : Settings} {inquiry : Inquiry} {memo : Memo}

theorem takeArgs_eq (take : Graph → Except CallError Args) (memo : Memo) (machine : Machine) :
    takeArgs take ⟨memo, machine⟩ =
      match take machine.graph with
      | .ok args => .ok args ⟨memo, machine⟩
      | .error e => .error (.malformed e) ⟨memo, machine⟩ := by
  unfold takeArgs
  rw [bind_apply, DeskM.compute_eq]
  simp only [MachineM.read]
  cases take machine.graph <;> rfl

theorem answer_eq (settings : Settings) (inquiry : Inquiry) :
    inquiry.answer settings = (do
      let args ← takeArgs inquiry.take
      if inquiry.mayFind then Nest.nest settings args else Nest.nestDirect settings args) := by
  cases inquiry with
  | call gate => rfl
  | callDirect gate => rfl
  | nest args | nestDirect args =>
    funext ⟨memo, machine⟩
    rw [bind_apply, takeArgs_eq]
    rfl

theorem perform_malformed {e : CallError} (h : inquiry.take g = .error e) :
    (inquiry.answer settings).perform memo g = ((.error (.malformed e), memo), g) := by
  rw [answer_eq, DeskM.perform, bind_apply, takeArgs_eq, h]

theorem perform_fit {args : Args} (h : inquiry.take g = .ok args) :
    (inquiry.answer settings).perform memo g =
      (if inquiry.mayFind then Nest.nest settings args else Nest.nestDirect settings args).perform
        memo g := by
  rw [answer_eq, DeskM.perform, bind_apply, takeArgs_eq, h]
  rfl

theorem take_direct (inquiry : Inquiry) : inquiry.direct.take = inquiry.take := by
  cases inquiry <;> rfl

theorem mayFind_direct (inquiry : Inquiry) : inquiry.direct.mayFind = false := by
  cases inquiry <;> rfl

theorem direct_eq_self (h : inquiry.mayFind = false) : inquiry.direct = inquiry := by
  cases inquiry with
  | call gate => cases h
  | callDirect gate => rfl
  | nest args => cases h
  | nestDirect args => rfl

theorem perform_direct (inquiry : Inquiry) (settings : Settings) (memo : Memo) (g : Graph) :
    (inquiry.direct.answer settings).perform memo g =
      match inquiry.take g with
      | .ok args => (((compute settings args g).1, memo), (compute settings args g).2)
      | .error e => ((.error (.malformed e), memo), g) := by
  have htake : inquiry.direct.take g = inquiry.take g := by rw [take_direct]
  cases hargs : inquiry.take g with
  | ok args =>
    rw [perform_fit (htake.trans hargs), mayFind_direct]
    exact perform_nestDirect settings args memo g
  | error e => rw [perform_malformed (htake.trans hargs)]

theorem take_extend {h : Graph} (wf : g.WellFormed) (hgh : g.Extends h)
    (hids : ∀ id ∈ inquiry.ids, g.Stored id) : inquiry.take h = inquiry.take g := by
  cases inquiry with
  | call gate => exact Args.ofGate_extend wf hgh (hids gate (by simp [ids]))
  | callDirect gate => exact Args.ofGate_extend wf hgh (hids gate (by simp [ids]))
  | nest args => rfl
  | nestDirect args => rfl

theorem stored_take (wf : g.WellFormed) (hids : ∀ id ∈ inquiry.ids, g.Stored id) {args : Args}
    (h : inquiry.take g = .ok args) : args.Stored g := by
  have hcall : ∀ gate, g.Stored gate → Args.ofGate g gate = .ok args → args.Stored g :=
    fun _ hgate h => Args.stored_ofGate wf hgate h
  cases inquiry with
  | call gate => exact hcall gate (hids gate (by simp [ids])) h
  | callDirect gate => exact hcall gate (hids gate (by simp [ids])) h
  | nest args | nestDirect args =>
    cases h
    exact Args.stored_iff.mpr hids

theorem grows_answer (wf : g.WellFormed) (hids : ∀ id ∈ inquiry.ids, g.Stored id) :
    g.Grows ((inquiry.answer settings).perform memo g).2 := by
  cases hargs : inquiry.take g with
  | error e =>
    rw [perform_malformed hargs]
    exact .refl wf
  | ok args =>
    have hs := stored_take wf hids hargs
    rw [perform_fit hargs]
    split
    · exact grows_nest wf hs memo
    · exact grows_nestDirect wf hs memo

theorem stored_answer (wf : g.WellFormed) (hids : ∀ id ∈ inquiry.ids, g.Stored id)
    (hm : ∀ key p, memo.get? g.id key = some p → g.Stored p) {p : NodeId}
    (hp : ((inquiry.answer settings).perform memo g).1.1 = .ok p) :
    ((inquiry.answer settings).perform memo g).2.Stored p := by
  cases hargs : inquiry.take g with
  | error e =>
    rw [perform_malformed hargs] at hp
    cases hp
  | ok args =>
    have hs := stored_take wf hids hargs
    rw [perform_fit hargs] at hp ⊢
    cases hfind : inquiry.mayFind with
    | true =>
      rw [hfind, if_pos rfl] at hp
      exact stored_nest wf hs hm hp
    | false =>
      rw [hfind, if_neg Bool.false_ne_true] at hp
      exact stored_nestDirect wf hs hp

end Inquiry
end NockDispatch.Nest
