import Mathlib.Data.List.Induction
import NockDispatch.Proofs.Text.Spelling

/-!
# The first token that is wrong

Tokens with which some noun begins lead the reader into open brackets, or to the end of the noun.
It stops at the first token behind which there is no noun any more, and what it reports is what is
wrong with that token. If there is no such token, then it reports that the text has ended, unless
it has read a noun. None of this depends on the graph.
-/

namespace NockDispatch.Text

/-- Some noun begins with the tokens. -/
def Viable (tokens : List Token) : Prop := ∃ more a, Spells (tokens ++ more) a

/-- What is wrong with a token behind others. -/
inductive Offence : List Token → Token → ReadError → Prop
  | badAtom {before word} : (∀ a, ¬ Spells before a) → literal? word = none →
      Offence before (.atom word) (.badAtom word)
  /-- The end of a bracket with nothing inside, or with one noun. -/
  | shortCell {outer inner} : (inner = [] ∨ ∃ a, Spells inner a) →
      Offence (outer ++ .opening :: inner) .closing .shortCell
  | unexpectedClosing : Offence [] .closing .unexpectedClosing
  | trailing {before a token} : Spells before a → Offence before token (.trailing token)

/-- The error that a text is at fault for. -/
inductive Blames (tokens : List Token) : ReadError → Prop
  /-- All of the text can be the beginning of a noun, but it is none. -/
  | unexpectedEnd : Viable tokens → (∀ a, ¬ Spells tokens a) → Blames tokens .unexpectedEnd
  /-- There is a first token behind which no noun is left. -/
  | first {before token after e} : tokens = before ++ token :: after → Viable before →
      ¬ Viable (before ++ [token]) → Offence before token e → Blames tokens e

theorem Spells.viable {tokens : List Token} {a : Noun} (hs : Spells tokens a) : Viable tokens :=
  ⟨[], a, by rwa [List.append_nil]⟩

theorem Viable.of_append {tokens more : List Token} (hv : Viable (tokens ++ more)) :
    Viable tokens := by
  obtain ⟨rest, a, hs⟩ := hv
  exact ⟨more ++ rest, a, by rwa [← List.append_assoc]⟩

theorem Viable.of_prefix {tokens whole : List Token} (hv : Viable whole) (hp : tokens <+: whole) :
    Viable tokens := by
  obtain ⟨more, rfl⟩ := hp
  exact hv.of_append

theorem Inside.short {tokens : List Token} {nouns : List Noun} (hi : Inside tokens nouns)
    (hshort : nouns.length < 2) : tokens = [] ∨ ∃ a, Spells tokens a := by
  rcases nouns with _ | ⟨first, _ | ⟨second, rest⟩⟩
  · exact .inl hi
  · exact .inr ⟨first, hi.exists_one⟩
  · simp only [List.length_cons] at hshort
    omega

namespace Reader

/-! ## Open brackets -/

/-- The tokens lead into brackets with the elements that are pending. -/
inductive Opens : List Token → Pending → Prop
  | start : Opens [] []
  | opening {before pending} : Opens before pending → Opens (before ++ [.opening]) ([] :: pending)
  | element {before elements outer tokens a} : Opens before (elements :: outer) →
      Spells tokens a → Opens (before ++ tokens) ((a :: elements) :: outer)

variable {before : List Token} {pending : Pending}

theorem Opens.eq_nil (ho : Opens before []) : before = [] := by
  cases ho
  rfl

theorem Opens.inside {elements : List Noun} (ho : Opens before (elements :: pending)) :
    ∃ outer inner, before = outer ++ .opening :: inner ∧ Opens outer pending ∧
      Inside inner elements.reverse := by
  generalize hall : elements :: pending = all at ho
  induction ho generalizing elements with
  | start => cases hall
  | @opening before _ ho _ =>
    cases hall
    exact ⟨before, [], rfl, ho, rfl⟩
  | element _ ha ih =>
    cases hall
    obtain ⟨outer, inner, rfl, ho, hi⟩ := ih rfl
    refine ⟨outer, inner ++ _, by rw [List.append_assoc, List.cons_append], ho, ?_⟩
    rw [List.reverse_cons]
    exact hi.snoc ha

theorem Opens.exists_bracket {elements : List Noun} (ho : Opens before (elements :: pending)) :
    ∃ outer more bracket a, Opens outer pending ∧ before ++ more = outer ++ bracket ∧
      Spells bracket a := by
  have hzero : Spells [.atom "0"] (.atom 0) := .atom (by decide)
  obtain ⟨outer, inner, rfl, houter, hi⟩ := ho.inside
  obtain ⟨a, ha⟩ := ((hi.snoc hzero).snoc hzero).exists_bracket (by simp)
  exact ⟨outer, [.atom "0", .atom "0", .closing], _, a, houter, by simp, ha⟩

theorem Opens.viable (ho : Opens before pending) : Viable before := by
  cases pending with
  | nil =>
    obtain rfl := ho.eq_nil
    exact ⟨[.atom "0"], .atom 0, .atom (by decide)⟩
  | cons elements outer =>
    induction outer generalizing before elements with
    | nil =>
      obtain ⟨outer, more, bracket, a, houter, heq, ha⟩ := ho.exists_bracket
      obtain rfl := houter.eq_nil
      exact ⟨more, a, by rwa [heq]⟩
    | cons elements' outer ih =>
      obtain ⟨outer, more, bracket, a, houter, heq, ha⟩ := ho.exists_bracket
      have hv := ih _ (houter.element ha)
      rw [← heq] at hv
      exact hv.of_append

/-! ## Runs of the reader -/

variable {start g : Graph} {brackets : Open}

/-- The reader has taken some tokens of a noun, and not all of them. -/
structure Reached (start : Graph) (before : List Token) (g : Graph) (brackets : Open) : Prop where
  wellFormed : g.WellFormed
  pending : ∃ pending, Opens before pending ∧ Holds g brackets pending
  reads : ∀ rest, read start (before ++ rest) = readWithin g brackets rest

theorem reached_start (wf : start.WellFormed) : Reached start [] start [] :=
  ⟨wf, ⟨[], .start, .nil⟩, fun _ => rfl⟩

theorem Reached.viable (hr : Reached start before g brackets) : Viable before := by
  obtain ⟨pending, ho, _⟩ := hr.pending
  exact ho.viable

theorem Reached.not_spells (hr : Reached start before g brackets) (wf : start.WellFormed)
    (a : Noun) : ¬ Spells before a := by
  intro ha
  have hread := hr.reads []
  rw [read_of_spells wf ha] at hread
  cases hread

/-- A token with which the reader fails cannot go on with a noun. -/
theorem Reached.not_viable (hr : Reached start before g brackets) (wf : start.WellFormed)
    {token : Token} {e : ReadError} {h : Graph} (hs : step g brackets token = (.error e, h)) :
    ¬ Viable (before ++ [token]) := by
  rintro ⟨more, a, ha⟩
  have hread := hr.reads (token :: more)
  rw [readWithin_cons_error hs, ← List.append_nil (before ++ token :: more),
    ← List.singleton_append, ← List.append_assoc before, read_of_spells wf ha] at hread
  cases hread

inductive Lands (start : Graph) (before : List Token) (token : Token) :
    Except ReadError Progress × Graph → Prop
  | within {brackets h} : Reached start (before ++ [token]) h brackets →
      Lands start before token (.ok (.within brackets), h)
  | complete {a id h} : Spells (before ++ [token]) a →
      Lands start before token (.ok (.complete id), h)
  | error {e h} : Offence before token e → Lands start before token (.error e, h)

theorem lands_deliver {outer tokens : List Token} {token : Token} {id : NodeId} {a : Noun}
    (wf : g.WellFormed) (ho : Opens outer pending) (hh : Holds g brackets pending)
    (ha : Spells tokens a) (hd : g.Denotes id a) (heq : outer ++ tokens = before ++ [token])
    (hreads : ∀ rest, read start (before ++ [token] ++ rest) =
      resume g rest (deliver brackets id)) :
    Lands start before token (.ok (deliver brackets id), g) := by
  cases hh with
  | nil =>
    obtain rfl := ho.eq_nil
    rw [List.nil_append] at heq
    exact .complete (heq ▸ ha)
  | cons hids hrest =>
    exact .within ⟨wf, ⟨_, heq ▸ ho.element ha, .cons (.cons hd hids) hrest⟩, hreads⟩

theorem step_closing_cases (g : Graph) (elements : List NodeId) (outer : Open) :
    elements.length < 2 ∧ step g (elements :: outer) .closing = (.error .shortCell, g) ∨
      2 ≤ elements.length ∧ ∃ id h, step g (elements :: outer) .closing =
        (.ok (deliver outer id), h) := by
  rcases elements with _ | ⟨last, _ | ⟨second, before⟩⟩
  · exact .inl ⟨by simp, rfl⟩
  · exact .inl ⟨by simp, rfl⟩
  · exact .inr ⟨by simp, _, _, rfl⟩

theorem Reached.lands_closing (hr : Reached start before g brackets)
    (hreads : ∀ {progress h}, step g brackets .closing = (.ok progress, h) → ∀ rest,
      read start (before ++ [.closing] ++ rest) = resume h rest progress) :
    Lands start before .closing (step g brackets .closing) := by
  obtain ⟨pending, ho, hh⟩ := hr.pending
  cases hh with
  | nil =>
    obtain rfl := ho.eq_nil
    exact .error .unexpectedClosing
  | @cons elements nouns outer _ hids hrest =>
    obtain ⟨front, inner, rfl, hfront, hi⟩ := ho.inside
    have hlen : nouns.reverse.length = elements.length := by
      rw [List.length_reverse, hids.length_eq]
    rcases step_closing_cases g elements outer with ⟨hshort, hs⟩ | ⟨hlong, -⟩
    · rw [hs]
      exact .error (.shortCell (hi.short (hlen ▸ hshort)))
    · rw [← List.forall₂_reverse_iff] at hids
      generalize nouns.reverse = inOrder at hi hids hlen
      obtain ⟨first, second, rest, rfl⟩ :
          ∃ first second rest, inOrder = first :: second :: rest := by
        rcases inOrder with _ | ⟨first, _ | ⟨second, rest⟩⟩
        · simp [← hlen] at hlong
        · simp [← hlen] at hlong
        · exact ⟨first, second, rest, rfl⟩
      have hs := step_closing hr.wellFormed hids outer
      obtain ⟨hgrow, hd⟩ := Graph.grows_put hr.wellFormed (ofElements first (second :: rest))
      rw [hs]
      exact lands_deliver hgrow.wellFormed hfront (Holds.extend hrest hgrow.extend) (.bracket hi) hd
        (by simp) (hreads hs)

/-- A token leads into more brackets, or to the end of the noun, or it is wrong there. -/
theorem Reached.lands (hr : Reached start before g brackets) (wf : start.WellFormed)
    (token : Token) : Lands start before token (step g brackets token) := by
  obtain ⟨pending, ho, hh⟩ := hr.pending
  have hreads : ∀ {progress h}, step g brackets token = (.ok progress, h) → ∀ rest,
      read start (before ++ [token] ++ rest) = resume h rest progress := by
    intro progress h hs rest
    rw [List.append_assoc, hr.reads]
    exact readWithin_cons hs
  have hatom : ∀ {a id h}, Spells [token] a → g.put a = (id, h) →
      step g brackets token = (.ok (deliver brackets id), h) →
      Lands start before token (step g brackets token) := by
    intro a id h ha hput hs
    obtain ⟨hgrow, hd⟩ := Graph.grows_put hr.wellFormed a
    rw [hput] at hgrow hd
    rw [hs]
    exact lands_deliver hgrow.wellFormed ho (hh.extend hgrow.extend) ha hd rfl (hreads hs)
  cases token with
  | opening => exact .within ⟨hr.wellFormed, ⟨_, ho.opening, .cons .nil hh⟩, hreads rfl⟩
  | closing => exact hr.lands_closing hreads
  | atom word =>
    cases hvalue : literal? word with
    | some value => exact hatom (.atom hvalue) rfl (by simp only [step, hvalue]; rfl)
    | none =>
      have hs : step g brackets (.atom word) = (.error (.badAtom word), g) := by
        simp only [step, hvalue]
      rw [hs]
      exact .error (.badAtom (hr.not_spells wf) hvalue)
  | term word => exact hatom .term rfl rfl

/-- What a reading says about the tokens that it was given: it ends behind a noun, or it names the
error that they are at fault for. -/
inductive Verdict (tokens : List Token) : Reading → Prop
  | noun {done a id rest h} : tokens = done ++ rest → Spells done a →
      Verdict tokens ⟨.ok id, rest, h⟩
  | fault {e rest h} : Blames tokens e → Verdict tokens ⟨.error e, rest, h⟩

theorem Reached.verdict (hr : Reached start before g brackets) (wf : start.WellFormed)
    (rest : List Token) : Verdict (before ++ rest) (readWithin g brackets rest) := by
  induction rest generalizing before g brackets with
  | nil =>
    rw [List.append_nil]
    exact .fault (.unexpectedEnd hr.viable (hr.not_spells wf))
  | cons token rest ih =>
    have heq : before ++ token :: rest = before ++ [token] ++ rest := by simp
    have hl := hr.lands wf token
    generalize hs : step g brackets token = landed at hl
    cases hl with
    | within hnext =>
      rw [readWithin_cons hs, heq]
      exact ih hnext
    | complete ha =>
      rw [readWithin_cons hs]
      exact .noun heq ha
    | error hoffence =>
      rw [readWithin_cons_error hs]
      exact .fault (.first rfl hr.viable (hr.not_viable wf hs) hoffence)

theorem exists_reached (wf : start.WellFormed) {after : List Token} {id : NodeId} {h : Graph}
    (hne : after ≠ []) (hread : read start (before ++ after) = ⟨.ok id, [], h⟩) :
    ∃ g brackets, Reached start before g brackets := by
  -- From the end on: before its last token, the reader was inside the noun already.
  induction before using List.reverseRecOn generalizing after with
  | nil => exact ⟨start, [], reached_start wf⟩
  | append_singleton before token ih =>
    rw [List.append_assoc, List.singleton_append] at hread
    obtain ⟨g, brackets, hr⟩ := ih (List.cons_ne_nil _ _) hread
    have hl := hr.lands wf token
    generalize hs : step g brackets token = landed at hl
    rw [hr.reads] at hread
    cases hl with
    | within hnext => exact ⟨_, _, hnext⟩
    | complete =>
      rw [readWithin_cons hs] at hread
      exact absurd (congrArg Reading.rest hread) hne
    | error =>
      rw [readWithin_cons_error hs] at hread
      cases hread

theorem not_spells_short {outer inner : List Token} (hshort : inner = [] ∨ ∃ b, Spells inner b)
    (a : Noun) : ¬ Spells (outer ++ .opening :: inner) a := by
  intro ha
  have wf := Graph.wellFormed_empty ⟨0⟩
  have hread := read_of_spells wf ha []
  rw [List.append_nil] at hread
  obtain ⟨g, brackets, hr⟩ := exists_reached wf (List.cons_ne_nil _ _) hread
  rw [hr.reads] at hread
  rcases hshort with rfl | ⟨b, hb⟩
  · cases hread
  · have hinner := passes_of_spelling hb hr.wellFormed ([] :: brackets) []
    rw [List.append_nil] at hinner
    have hopen : readWithin g brackets (.opening :: inner) = readWithin g ([] :: brackets) inner :=
      rfl
    rw [hopen, hinner] at hread
    cases hread

/-! ## Other graphs -/

/-- Two steps lead to the same error, or both to the end of a noun, or both into as many brackets
with as many elements. -/
inductive Alike : Except ReadError Progress → Except ReadError Progress → Prop
  | error {e} : Alike (.error e) (.error e)
  | complete {id id'} : Alike (.ok (.complete id)) (.ok (.complete id'))
  | within {brackets brackets' : Open} : brackets.map List.length = brackets'.map List.length →
      Alike (.ok (.within brackets)) (.ok (.within brackets'))

variable {brackets' : Open}

theorem alike_deliver (hlen : brackets.map List.length = brackets'.map List.length)
    (id id' : NodeId) : Alike (.ok (deliver brackets id)) (.ok (deliver brackets' id')) := by
  rcases brackets with _ | ⟨elements, outer⟩ <;> rcases brackets' with _ | ⟨elements', outer'⟩
  · exact .complete
  · cases hlen
  · cases hlen
  · exact .within (by simpa using hlen)

theorem alike_step (hlen : brackets.map List.length = brackets'.map List.length) (g g' : Graph)
    (token : Token) : Alike (step g brackets token).1 (step g' brackets' token).1 := by
  cases token with
  | opening => exact .within (by simpa using hlen)
  | closing =>
    rcases brackets with _ | ⟨elements, outer⟩ <;> rcases brackets' with _ | ⟨elements', outer'⟩
    · exact .error
    · cases hlen
    · cases hlen
    · obtain ⟨hinner, houter⟩ : elements.length = elements'.length ∧
          outer.map List.length = outer'.map List.length := by simpa using hlen
      rcases step_closing_cases g elements outer with ⟨hshort, hs⟩ | ⟨hlong, id, h, hs⟩ <;>
        rcases step_closing_cases g' elements' outer' with ⟨hshort', hs'⟩ | ⟨hlong', id', h', hs'⟩
      · rw [hs, hs']
        exact .error
      · omega
      · omega
      · rw [hs, hs']
        exact alike_deliver houter id id'
  | atom word =>
    cases hvalue : literal? word with
    | none =>
      simp only [step, hvalue]
      exact .error
    | some value =>
      simp only [step, hvalue]
      exact alike_deliver hlen _ _
  | term word => exact alike_deliver hlen _ _

/-- Two readings leave the same tokens, with a noun each or with the same error. -/
inductive Agree : Reading → Reading → Prop
  | noun {id id' rest g g'} : Agree ⟨.ok id, rest, g⟩ ⟨.ok id', rest, g'⟩
  | error {e rest g g'} : Agree ⟨.error e, rest, g⟩ ⟨.error e, rest, g'⟩

theorem agree_readWithin (hlen : brackets.map List.length = brackets'.map List.length)
    (g g' : Graph) (tokens : List Token) :
    Agree (readWithin g brackets tokens) (readWithin g' brackets' tokens) := by
  induction tokens generalizing g g' brackets brackets' with
  | nil => exact .error
  | cons token rest ih =>
    have halike := alike_step hlen g g' token
    unfold readWithin
    generalize step g brackets token = landed at halike ⊢
    generalize step g' brackets' token = landed' at halike ⊢
    obtain ⟨progress, h⟩ := landed
    obtain ⟨progress', h'⟩ := landed'
    cases halike with
    | error => exact .error
    | complete => exact .noun
    | within hlen => exact ih hlen h h'

theorem Verdict.agree {tokens : List Token} {reading reading' : Reading}
    (hv : Verdict tokens reading) (ha : Agree reading reading') : Verdict tokens reading' := by
  cases ha with
  | noun =>
    cases hv with
    | noun heq hs => exact .noun heq hs
  | error =>
    cases hv with
    | fault hb => exact .fault hb

theorem verdict_read (g : Graph) (tokens : List Token) : Verdict tokens (read g tokens) := by
  have wf := Graph.wellFormed_empty ⟨0⟩
  exact ((reached_start wf).verdict wf tokens).agree (agree_readWithin rfl _ g tokens)

end Reader

/-! ## One error -/

variable {whole before : List Token} {token : Token} {e e' : ReadError}

theorem Spells.not_viable {a : Noun} (hs : Spells whole a) (token : Token) :
    ¬ Viable (whole ++ [token]) := by
  rintro ⟨more, b, hb⟩
  have wf := Graph.wellFormed_empty ⟨0⟩
  have hread := Reader.read_of_spells wf hs (token :: more)
  have hread' := Reader.read_of_spells wf hb []
  rw [List.append_nil, List.append_assoc, List.singleton_append, hread] at hread'
  cases congrArg Reader.Reading.rest hread'

theorem Offence.unique (ho : Offence before token e) (ho' : Offence before token e') : e = e' := by
  generalize hbefore : before = before' at ho'
  cases ho with
  | badAtom hno hvalue =>
    cases ho' with
    | badAtom => rfl
    | trailing hs => exact absurd (hbefore ▸ hs) (hno _)
  | shortCell hshort =>
    cases ho' with
    | shortCell => rfl
    | unexpectedClosing => simp at hbefore
    | trailing hs => exact absurd (hbefore ▸ hs) (Reader.not_spells_short hshort _)
  | unexpectedClosing =>
    cases ho' with
    | shortCell => simp at hbefore
    | unexpectedClosing => rfl
    | trailing hs => exact absurd hbefore.symm hs.ne_nil
  | trailing hs =>
    subst hbefore
    cases ho' with
    | badAtom hno => exact absurd hs (hno _)
    | shortCell hshort => exact absurd hs (Reader.not_spells_short hshort _)
    | unexpectedClosing => exact absurd rfl hs.ne_nil
    | trailing => rfl

theorem Blames.not_spells (hb : Blames whole e) (a : Noun) : ¬ Spells whole a := by
  cases hb with
  | unexpectedEnd _ hno => exact hno a
  | first heq _ hstop =>
    intro hs
    exact hstop (hs.viable.of_prefix (by simp [heq]))

theorem Viable.length_le {after : List Token} (hv : Viable before)
    (hp : before <+: whole) {stop : List Token} (heq : whole = stop ++ token :: after)
    (hstop : ¬ Viable (stop ++ [token])) : before.length ≤ stop.length := by
  by_contra hlt
  refine hstop (hv.of_prefix (List.prefix_of_prefix_length_le ?_ hp ?_))
  · simp [heq]
  · simp only [List.length_append, List.length_singleton]
    omega

theorem Blames.unique (hb : Blames whole e) (hb' : Blames whole e') : e = e' := by
  have hclash : ∀ {before token after}, whole = before ++ token :: after → Viable whole →
      Viable (before ++ [token]) :=
    fun heq hv => hv.of_prefix (by simp [heq])
  cases hb with
  | unexpectedEnd hv _ =>
    cases hb' with
    | unexpectedEnd => rfl
    | first heq _ hstop => exact absurd (hclash heq hv) hstop
  | first heq hv hstop ho =>
    cases hb' with
    | unexpectedEnd hv' _ => exact absurd (hclash heq hv') hstop
    | first heq' hv' hstop' ho' =>
      have hle := hv.length_le (heq ▸ List.prefix_append _ _) heq' hstop'
      have hle' := hv'.length_le (heq' ▸ List.prefix_append _ _) heq hstop
      obtain ⟨rfl, hrest⟩ := List.append_inj (heq.symm.trans heq') (Nat.le_antisymm hle hle')
      cases hrest
      exact ho.unique ho'

/-! ## Whole texts -/

theorem readNoun_outcome (g : Graph) (text : String) :
    ((∃ id, (readNoun g text).1 = .ok id) ∧ ∃ a, Spells (tokens text) a) ∨
      ∃ e, (readNoun g text).1 = .error e ∧ Blames (tokens text) e := by
  have hv := Reader.verdict_read g (tokens text)
  unfold readNoun
  generalize Reader.read g (tokens text) = reading at hv ⊢
  cases hv with
  | @noun _ a id rest h heq hs =>
    cases rest with
    | nil =>
      rw [List.append_nil] at heq
      exact .inl ⟨⟨id, rfl⟩, a, heq ▸ hs⟩
    | cons token rest =>
      exact .inr ⟨_, rfl, .first heq hs.viable (hs.not_viable token) (.trailing hs)⟩
  | fault hb => exact .inr ⟨_, rfl, hb⟩

/-- A text is accepted when it is exactly one noun, which is what is stored then. Otherwise the
error is the one that its tokens are at fault for: there is always one and never another. -/
theorem readNoun_accepts_or_blames (g : Graph) (text : String) :
    ((∃ id, (readNoun g text).1 = .ok id) ↔ ∃ a, Spells (tokens text) a) ∧
      (∀ e, (readNoun g text).1 = .error e ↔ Blames (tokens text) e) ∧
      (g.WellFormed → ∀ id, (readNoun g text).1 = .ok id →
        ∃! a, Spells (tokens text) a ∧ (readNoun g text).2.Denotes id a) := by
  have hout := readNoun_outcome g text
  refine ⟨⟨?_, ?_⟩, fun e => ⟨?_, ?_⟩, ?_⟩
  · rintro ⟨id, hid⟩
    rcases hout with ⟨_, hs⟩ | ⟨e, he, _⟩
    · exact hs
    · rw [hid] at he
      cases he
  · rintro ⟨a, hs⟩
    rcases hout with ⟨hid, _⟩ | ⟨e, _, hb⟩
    · exact hid
    · exact absurd hs (hb.not_spells a)
  · intro he
    rcases hout with ⟨⟨id, hid⟩, _⟩ | ⟨e', he', hb⟩
    · rw [he] at hid
      cases hid
    · rw [he] at he'
      cases he'
      exact hb
  · intro hb
    rcases hout with ⟨_, a, hs⟩ | ⟨e', he', hb'⟩
    · exact absurd hs (hb.not_spells a)
    · rw [he', hb.unique hb']
  · intro wf id hid
    rcases hout with ⟨_, a, hs⟩ | ⟨e, he, _⟩
    · have hstored : ∀ b, Spells (tokens text) b → (readNoun g text).2.Denotes id b := by
        intro b hb
        have hd := (Graph.grows_put wf b).2
        rw [readNoun_of_spells wf hb] at hid ⊢
        cases hid
        exact hd
      exact ⟨a, ⟨hs, hstored a hs⟩, fun b hb => hb.2.functional (hstored a hs)⟩
    · rw [hid] at he
      cases he

/-- A noun is stored, and in brackets that are not closed a word that is no number comes first. -/
theorem readNoun_accepts_or_blames_nested :
    (∃ id a, (readNoun (.empty ⟨0⟩) "[7 8]").1 = .ok id ∧ Spells (tokens "[7 8]") a ∧
      (readNoun (.empty ⟨0⟩) "[7 8]").2.Denotes id a) ∧
      Blames (tokens "[1 [2 x] 3") (.badAtom "x") := by
  have hread := readNoun_accepts_or_blames (.empty ⟨0⟩) "[7 8]"
  obtain ⟨id, hid⟩ : ∃ id, (readNoun (.empty ⟨0⟩) "[7 8]").1 = .ok id := ⟨_, rfl⟩
  obtain ⟨a, ⟨hs, hd⟩, _⟩ := hread.2.2 (Graph.wellFormed_empty _) id hid
  exact ⟨⟨id, a, hid, hs, hd⟩,
    ((readNoun_accepts_or_blames (.empty ⟨0⟩) "[1 [2 x] 3").2.1 _).mp rfl⟩

end NockDispatch.Text
