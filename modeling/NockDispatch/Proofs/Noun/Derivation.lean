import NockDispatch.Noun.Reduction
import NockDispatch.Proofs.Eval.Ledger

/-!
# Derivations

`Derives a f p l` says that the formula `f` has the product `p` on the subject `a` by the
rules as an evaluator applies them: a branch evaluates its test once, an arm is pulled out of
its core, and a hint is dropped. The list `l` has the rules in the order of their
application, those of the formulas inside before those of the formula that goes on.

The published rules say the same of the opcodes 6, 9, 10 and 11 by way of other formulas.
Both allow the same products.
-/

namespace NockDispatch.Noun

inductive Derives : Noun → Noun → Noun → List Application → Prop
  | autocons {a b c d p q l m} : Derives a (cell b c) p l → Derives a d q m →
      Derives a (cell (cell b c) d) (cell p q)
        (⟨.autocons, a, cell (cell b c) d⟩ :: (l ++ m))
  | slot {a n p} : a.slot? n = some p →
      Derives a (cell (atom 0) (atom n)) p [⟨.opcode .slot, a, cell (atom 0) (atom n)⟩]
  | quote {a b} : Derives a (cell (atom 1) b) b [⟨.opcode .quote, a, cell (atom 1) b⟩]
  | eval {a b c s f p l m k} : Derives a b s l → Derives a c f m → Derives s f p k →
      Derives a (triple (atom 2) b c) p (⟨.opcode .eval, a, triple (atom 2) b c⟩ :: (l ++ m ++ k))
  | isCell {a b p l} : Derives a b p l →
      Derives a (cell (atom 3) b) (loobean p.isCell) (⟨.opcode .isCell, a, cell (atom 3) b⟩ :: l)
  | increment {a b n l} : Derives a b (atom n) l →
      Derives a (cell (atom 4) b) (atom (n + 1)) (⟨.opcode .increment, a, cell (atom 4) b⟩ :: l)
  | same {a b c p q l m} : Derives a b p l → Derives a c q m →
      Derives a (triple (atom 5) b c) (loobean (p = q))
        (⟨.opcode .same, a, triple (atom 5) b c⟩ :: (l ++ m))
  | branch {a b c d p l m} (yes : Bool) : Derives a b (loobean yes) l →
      Derives a (if yes then c else d) p m →
      Derives a (quadruple (atom 6) b c d) p
        (⟨.opcode .branch, a, quadruple (atom 6) b c d⟩ :: (l ++ m))
  | compose {a b c s p l m} : Derives a b s l → Derives s c p m →
      Derives a (triple (atom 7) b c) p (⟨.opcode .compose, a, triple (atom 7) b c⟩ :: (l ++ m))
  | push {a b c s p l m} : Derives a b s l → Derives (cell s a) c p m →
      Derives a (triple (atom 8) b c) p (⟨.opcode .push, a, triple (atom 8) b c⟩ :: (l ++ m))
  | pull {a n c core f p l m} : Derives a c core l → core.slot? n = some f →
      Derives core f p m →
      Derives a (triple (atom 9) (atom n) c) p
        (⟨.opcode .pull, a, triple (atom 9) (atom n) c⟩ :: (l ++ m))
  | edit {a n c d value target p l m} : Derives a c value l → Derives a d target m →
      target.edit? n value = some p →
      Derives a (triple (atom 10) (cell (atom n) c) d) p
        (⟨.opcode .edit, a, triple (atom 10) (cell (atom n) c) d⟩ :: (l ++ m))
  | dynamicHint {a b c d clue p l m} : Derives a c clue l → Derives a d p m →
      Derives a (triple (atom 11) (cell b c) d) p
        (⟨.opcode .hint, a, triple (atom 11) (cell b c) d⟩ :: (l ++ m))
  | staticHint {a n c p l} : Derives a c p l →
      Derives a (triple (atom 11) (atom n) c) p
        (⟨.opcode .hint, a, triple (atom 11) (atom n) c⟩ :: l)

/-! ## Derivations of the formulas that the published rules make up -/

theorem slot?_two (a b : Noun) : (cell a b).slot? 2 = some a := slot_iff.mp (.head .whole)

theorem slot?_three (a b : Noun) : (cell a b).slot? 3 = some b := slot_iff.mp (.tail .whole)

theorem slot?_atoms (m k n : Nat) : (cell (atom m) (atom k)).slot? (n + 4) = none := by
  have hlog : 2 ≤ (n + 4).log2 := (Nat.le_log2 (by omega)).mpr (by omega)
  obtain ⟨way, hway⟩ : ∃ way, Axis.path (n + 4) = some way := ⟨_, if_neg (by omega)⟩
  have hlength : way.length = (n + 4).log2 := by
    rw [Axis.path, if_neg (by omega), Option.some.injEq] at hway
    simp [← hway]
  rw [slot?, hway]
  rcases way with _ | ⟨first, _ | ⟨second, way⟩⟩
  · simp only [List.length_nil] at hlength
    omega
  · simp only [List.length_cons, List.length_nil] at hlength
    omega
  · cases first <;> simp [walk]

theorem Derives.slot_inv {a f p : Noun} {l : List Application}
    (h : Derives a (cell (atom 0) f) p l) : ∃ n, f = atom n ∧ a.slot? n = some p := by
  cases h with
  | slot hs => exact ⟨_, rfl, hs⟩

theorem Derives.increment_inv {a b i : Noun} {l : List Application}
    (h : Derives a (cell (atom 4) b) i l) :
    ∃ n m, Derives a b (atom n) m ∧ i = atom (n + 1) := by
  cases h with
  | increment hb => exact ⟨_, _, hb, rfl⟩

theorem Derives.eval_inv {a b c p : Noun} {l : List Application}
    (h : Derives a (triple (atom 2) b c) p l) :
    ∃ s f m, (∃ k, Derives a b s k) ∧ (∃ k, Derives a c f k) ∧ Derives s f p m := by
  cases h with
  | eval hb hc hp => exact ⟨_, _, _, ⟨_, hb⟩, ⟨_, hc⟩, hp⟩

theorem Derives.reduces {a f p : Noun} {l : List Application} (h : Derives a f p l) :
    Reduces a f p := by
  induction h with
  | autocons _ _ ih ih' => exact .autocons ih ih'
  | slot hs => exact .slot (slot_iff.mpr hs)
  | quote => exact .quote
  | eval _ _ _ ih ih' ih'' => exact .eval ih ih' ih''
  | isCell _ ih => exact .isCell ih
  | increment _ ih => exact .increment ih
  | same _ _ ih ih' => exact .same ih ih'
  | branch yes _ _ ih ih' =>
    have hcount := Reduces.increment (Reduces.increment ih)
    cases yes with
    | true => exact .branch hcount (.slot (.head .whole)) (.slot (.head .whole)) ih'
    | false => exact .branch hcount (.slot (.tail .whole)) (.slot (.tail .whole)) ih'
  | compose _ _ ih ih' => exact .compose ih ih'
  | push _ _ ih ih' => exact .push ih ih'
  | pull _ hs _ ih ih' =>
    exact .pull ih (.eval (.slot .whole) (.slot (slot_iff.mpr hs)) ih')
  | edit _ _ he ih ih' => exact .edit ih ih' (edit_iff.mpr he)
  | dynamicHint _ _ ih ih' => exact .dynamicHint ih ih' (.slot (.tail .whole))
  | staticHint _ ih => exact .staticHint ih

/-- The published expansion of a branch picks the formula that the test asks for. -/
theorem Derives.of_branch {a b c d i j f p : Noun} {l m k n : List Application}
    (hi : Derives a (cell (atom 4) (cell (atom 4) b)) i l)
    (hj : Derives (cell (atom 2) (atom 3)) (cell (atom 0) i) j m)
    (hf : Derives (cell c d) (cell (atom 0) j) f k) (hp : Derives a f p n) :
    ∃ l, Derives a (quadruple (atom 6) b c d) p l := by
  obtain ⟨_, _, hone, rfl⟩ := hi.increment_inv
  obtain ⟨test, _, htest, hsucc⟩ := hone.increment_inv
  cases hsucc
  obtain ⟨_, hn, hslot⟩ := hj.slot_inv
  cases hn
  obtain ⟨_, rfl, hpick⟩ := hf.slot_inv
  rcases test with _ | _ | test
  · rw [slot?_two] at hslot
    cases hslot
    rw [slot?_two] at hpick
    cases hpick
    exact ⟨_, .branch true htest hp⟩
  · rw [slot?_three] at hslot
    cases hslot
    rw [slot?_three] at hpick
    cases hpick
    exact ⟨_, .branch false htest hp⟩
  · rw [show test + 1 + 1 + 1 + 1 = test + 4 from rfl, slot?_atoms] at hslot
    contradiction

theorem Reduces.derives {a f p : Noun} (h : Reduces a f p) : ∃ l, Derives a f p l := by
  induction h with
  | autocons _ _ ih ih' =>
    obtain ⟨_, h⟩ := ih
    obtain ⟨_, h'⟩ := ih'
    exact ⟨_, .autocons h h'⟩
  | slot hs => exact ⟨_, .slot (slot_iff.mp hs)⟩
  | quote => exact ⟨_, .quote⟩
  | eval _ _ _ ih ih' ih'' =>
    obtain ⟨_, h⟩ := ih
    obtain ⟨_, h'⟩ := ih'
    obtain ⟨_, h''⟩ := ih''
    exact ⟨_, .eval h h' h''⟩
  | isCell _ ih =>
    obtain ⟨_, h⟩ := ih
    exact ⟨_, .isCell h⟩
  | increment _ ih =>
    obtain ⟨_, h⟩ := ih
    exact ⟨_, .increment h⟩
  | same _ _ ih ih' =>
    obtain ⟨_, h⟩ := ih
    obtain ⟨_, h'⟩ := ih'
    exact ⟨_, .same h h'⟩
  | branch _ _ _ _ ihi ihj ihf ihp =>
    obtain ⟨_, hi⟩ := ihi
    obtain ⟨_, hj⟩ := ihj
    obtain ⟨_, hf⟩ := ihf
    obtain ⟨_, hp⟩ := ihp
    exact hi.of_branch hj hf hp
  | compose _ _ ih ih' =>
    obtain ⟨_, h⟩ := ih
    obtain ⟨_, h'⟩ := ih'
    exact ⟨_, .compose h h'⟩
  | push _ _ ih ih' =>
    obtain ⟨_, h⟩ := ih
    obtain ⟨_, h'⟩ := ih'
    exact ⟨_, .push h h'⟩
  | pull _ _ ih ih' =>
    obtain ⟨_, h⟩ := ih
    obtain ⟨_, h'⟩ := ih'
    obtain ⟨_, _, _, ⟨_, hs⟩, ⟨_, hf⟩, hp⟩ := h'.eval_inv
    obtain ⟨_, hone, hcore⟩ := hs.slot_inv
    obtain ⟨_, rfl, harm⟩ := hf.slot_inv
    cases hone
    rw [slot?_one] at hcore
    cases hcore
    exact ⟨_, .pull h harm hp⟩
  | edit _ _ he ih ih' =>
    obtain ⟨_, h⟩ := ih
    obtain ⟨_, h'⟩ := ih'
    exact ⟨_, .edit h h' (edit_iff.mp he)⟩
  | dynamicHint _ _ _ ih ih' ih'' =>
    obtain ⟨_, h⟩ := ih
    obtain ⟨_, h'⟩ := ih'
    obtain ⟨_, h''⟩ := ih''
    obtain ⟨_, hthree, hslot⟩ := h''.slot_inv
    cases hthree
    rw [slot?_three] at hslot
    cases hslot
    exact ⟨_, .dynamicHint h h'⟩
  | staticHint _ ih =>
    obtain ⟨_, h⟩ := ih
    exact ⟨_, .staticHint h⟩

end NockDispatch.Noun
