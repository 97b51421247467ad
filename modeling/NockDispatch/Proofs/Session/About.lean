import NockDispatch.Proofs.Session.Inquiry

/-!
# What an inquiry is about

An inquiry that may be answered from a memo is about four nouns, which it is given one by one or
by a gate that holds them. Whether it is malformed, and what is looked up for it, is a matter of
these nouns: the battery of the gate plays no part.
-/

namespace NockDispatch.Nest

variable {g : Graph} {args : Args} {terms : Terms} {inquiry : Inquiry}

/-- The gate that holds the nouns of a nest check around its battery. -/
def Terms.gate (terms : Terms) (battery : Noun) : Noun :=
  .cell battery (.cell (.cell terms.tel terms.ref) terms.van)

theorem Terms.slot?_gate (terms : Terms) (battery : Noun) :
    (terms.gate battery).slot? Axis.sampleHead.toNat = some terms.tel ∧
      (terms.gate battery).slot? Axis.sampleTail.toNat = some terms.ref ∧
      (terms.gate battery).slot? Axis.context.toNat = some terms.van :=
  ⟨Noun.slot?_of_slot (.head (.head (.tail .whole))),
    Noun.slot?_of_slot (.tail (.head (.tail .whole))), Noun.slot?_of_slot (.tail (.tail .whole))⟩

namespace Args

theorem checkTel_eq_ok {tel : NodeId} {a : Noun} (hd : g.Denotes tel a) :
    checkTel g tel = .ok () ↔ ∃ yes, a = .loobean yes := by
  rcases a with (_ | _ | n) | ⟨b, c⟩
  · rw [checkTel, hd.atom?_atom]
    exact iff_of_true rfl ⟨true, rfl⟩
  · rw [checkTel, hd.atom?_atom]
    exact iff_of_true rfl ⟨false, rfl⟩
  · rw [checkTel, hd.atom?_atom]
    simp [Noun.loobean]
  · rw [checkTel, hd.atom?_cell]
    simp [Noun.loobean]

/-- A gate around four nouns is taken apart into these nouns, unless `tel` is no loobean. -/
theorem ofGate_of_denotes {gate : NodeId} {battery : Noun}
    (hd : g.Denotes gate (terms.gate battery))
    (hsut : terms.van.slot? Axis.sample.toNat = some terms.sut) :
    ∃ args : Args, args.Denotes g terms ∧
      ofGate g gate = do
        checkTel g args.tel
        return args := by
  obtain ⟨htel, href, hvan⟩ := terms.slot?_gate battery
  obtain ⟨tel, htel, hdtel⟩ := hd.wordSlot?_some htel
  obtain ⟨ref, href, hdref⟩ := hd.wordSlot?_some href
  obtain ⟨van, hvan, hdvan⟩ := hd.wordSlot?_some hvan
  obtain ⟨sut, hsut, hdsut⟩ := hdvan.wordSlot?_some hsut
  refine ⟨⟨van, sut, tel, ref⟩, ⟨hdvan, hdsut, hdtel, hdref⟩, ?_⟩
  simp only [ofGate, slotOf, sampleOf, htel, href, hvan, hsut, bind, Except.bind]

theorem fit_of_checks {sut : NodeId} (hd : args.Denotes g terms)
    (hcheck : checkTel g args.tel = .ok ()) (hsut : sampleOf g args.van = .ok sut) :
    terms.Fit := by
  refine ⟨(checkTel_eq_ok hd.tel).mp hcheck, ?_⟩
  have hslot := hd.van.slot? Axis.sample.toNat
  rw [← Graph.wordSlot?_eq, sampleOf_eq_ok hsut] at hslot
  generalize terms.van.slot? Axis.sample.toNat = found at hslot ⊢
  cases hslot
  rfl

end Args

theorem keyOf_extend {h : Graph} (hgh : g.Extends h) (hd : args.Denotes g terms)
    (keyAxis : UInt64) : keyOf h keyAxis args = keyOf g keyAxis args := by
  simp only [keyOf, Graph.wordSlot?_eq, hd.van.slot?_extend hgh]

namespace Inquiry

/-- The inquiries that may be answered from a memo, and the nouns that they are about. -/
inductive About (g : Graph) : Inquiry → Terms → Prop
  | nest {args : Args} {terms : Terms} : args.Denotes g terms → About g (.nest args) terms
  | call {gate : NodeId} {battery : Noun} {terms : Terms} : g.Denotes gate (terms.gate battery) →
      terms.van.slot? Axis.sample.toNat = some terms.sut → About g (.call gate) terms

theorem About.mayFind (ha : inquiry.About g terms) : inquiry.mayFind = true := by
  cases ha <;> rfl

theorem About.fits (ha : inquiry.About g terms) (hf : terms.Fit) : inquiry.Fits g := by
  cases ha with
  | nest hd => exact hd.given hf
  | call hd => exact ⟨List.forall_mem_singleton.mpr hd.stored, List.forall_mem_nil _⟩

theorem About.take_eq_ok (ha : inquiry.About g terms) (hf : terms.Fit) :
    ∃ args, inquiry.take g = .ok args ∧ args.Denotes g terms := by
  cases ha with
  | @nest args _ hd => exact ⟨args, rfl, hd⟩
  | call hd hsut =>
    obtain ⟨args, hargs, htake⟩ := Args.ofGate_of_denotes hd hsut
    refine ⟨args, ?_, hargs⟩
    rw [take, htake, (Args.checkTel_eq_ok hargs.tel).mpr hf.1]
    rfl

/-- Nouns that are taken, now or before, are fit. -/
theorem fit_of_take (hf : inquiry.Fits g) (h : inquiry.take g = .ok args)
    (hd : args.Denotes g terms) : terms.Fit := by
  have hparts : args.TakenFrom g → terms.Fit := by
    intro h
    obtain ⟨_, hcheck, h⟩ := bind_eq_ok (Args.takenFrom_iff.mp h)
    obtain ⟨sample, hsample, _⟩ := bind_eq_ok h
    exact Args.fit_of_checks hd hcheck hsample
  have hgate : ∀ gate, Args.ofGate g gate = .ok args → terms.Fit := by
    intro gate h
    obtain ⟨tel, _, h⟩ := bind_eq_ok h
    obtain ⟨ref, _, h⟩ := bind_eq_ok h
    obtain ⟨van, _, h⟩ := bind_eq_ok h
    obtain ⟨_, hcheck, h⟩ := bind_eq_ok h
    obtain ⟨sut, hsut, h⟩ := bind_eq_ok h
    cases h
    exact Args.fit_of_checks hd hcheck hsut
  cases inquiry with
  | call gate => exact hgate gate h
  | callDirect gate => exact hgate gate h
  | nest args | nestDirect args =>
    cases h
    exact hparts (hf.taken args (List.mem_singleton_self args))

end Inquiry
end NockDispatch.Nest
