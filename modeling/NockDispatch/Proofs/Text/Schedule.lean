import NockDispatch.Proofs.Text.Offence
import NockDispatch.Text.Stream

/-!
# What a stream gives out

A stream answers by the tokens that are still to come, and by nothing else: to look whether there
is more takes none of them, and to read takes at least one of them if there is any. So reading
for as long as there is more comes to an end, after which nothing is found any more.

No token and no comment goes on behind the end of its line. The tokens of some lines are those of
each of them, and lines that hold a noun each are read as these nouns.
-/

namespace NockDispatch.Text

/-! ## Lines -/

namespace Lexer

theorem run_newline (mode : Mode) (line more : List Char) :
    run mode (line ++ '\n' :: more) = run mode line ++ run .gap more := by
  induction line generalizing mode with
  | nil => rw [List.nil_append, run_cons, step_newline, run]
  | cons c line ih => rw [List.cons_append, run_cons, run_cons, ih, List.append_assoc]

end Lexer

theorem tokens_lines (lines : List String) :
    tokens ("\n".intercalate lines) = (lines.map tokens).flatten := by
  have hnewline : "\n".toList = ['\n'] := rfl
  rw [tokens, String.toList_intercalate, hnewline]
  induction lines with
  | nil => rfl
  | cons line lines ih =>
    cases lines with
    | nil =>
      rw [List.map_singleton, List.intercalate_singleton, List.map_singleton,
        List.flatten_singleton, tokens]
    | cons next lines =>
      simp only [List.map_cons, List.intercalate_cons_cons, List.append_assoc,
        List.singleton_append, Lexer.run_newline, List.flatten_cons] at ih ⊢
      rw [ih]
      rfl

/-! ## Nouns in a row -/

/-- The text is exactly one noun: in some graph or other it is read as that noun. -/
def ReadsAs (text : String) (a : Noun) : Prop :=
  ∃ (g : Graph) (id : NodeId), g.WellFormed ∧ (readNoun g text).1 = .ok id ∧
    (readNoun g text).2.Denotes id a

theorem readsAs_iff {text : String} {a : Noun} : ReadsAs text a ↔ Spells (tokens text) a := by
  constructor
  · rintro ⟨g, id, wf, hid, hd⟩
    rcases readNoun_outcome g text with ⟨-, b, hb⟩ | ⟨e, he, -⟩
    · rw [readNoun_of_spells wf hb] at hid hd
      cases hid
      rwa [hd.functional (Graph.grows_put wf b).2]
    · rw [he] at hid
      cases hid
  · intro hs
    have wf := Graph.wellFormed_empty ⟨0⟩
    refine ⟨.empty ⟨0⟩, _, wf, congrArg Prod.fst (readNoun_of_spells wf hs), ?_⟩
    rw [readNoun_of_spells wf hs]
    exact (Graph.grows_put wf a).2

namespace Reader

theorem rest_readWithin_suffix (g : Graph) (brackets : Open) (tokens : List Token) :
    (readWithin g brackets tokens).rest <:+ tokens := by
  induction tokens generalizing g brackets with
  | nil => exact List.suffix_rfl
  | cons token rest ih =>
    unfold readWithin
    split
    · exact (ih _ _).trans (List.suffix_cons token rest)
    · exact List.suffix_cons token rest
    · exact List.suffix_cons token rest

theorem readAll_nil (g : Graph) : readAll g [] = ([], g) := by
  unfold readAll
  rfl

theorem readAll_of_ne_nil (g : Graph) {tokens : List Token} (htokens : tokens ≠ []) :
    readAll g tokens =
      ((read g tokens).outcome :: (readAll (read g tokens).graph (read g tokens).rest).1,
        (readAll (read g tokens).graph (read g tokens).rest).2) := by
  cases tokens with
  | nil => exact absurd rfl htokens
  | cons token rest => rw [readAll]

/-- Every reading takes a token of its own. -/
theorem length_readAll_le (g : Graph) (tokens : List Token) :
    (readAll g tokens).1.length ≤ tokens.length := by
  fun_induction readAll g tokens with
  | case1 => exact Nat.le_refl 0
  | case2 g token more reading outcomes h hall ih =>
    have hlt : reading.rest.length < (token :: more).length := length_rest_read_lt g token more
    rw [hall] at ih
    exact Nat.lt_of_le_of_lt ih hlt

/-- Spellings in a row are read one after another, and their nouns are all that is stored. -/
theorem readAll_of_spells {g : Graph} (wf : g.WellFormed) {parts : List (List Token)}
    {nouns : List Noun} (hs : List.Forall₂ Spells parts nouns) :
    ∃ ids, List.Forall₂ (g.putAll nouns).Denotes ids nouns ∧
      readAll g parts.flatten = (ids.map .ok, g.putAll nouns) := by
  induction hs generalizing g with
  | nil => exact ⟨[], .nil, readAll_nil g⟩
  | @cons part a parts nouns hpart _ ih =>
    obtain ⟨hgrow, hd⟩ := Graph.grows_put wf a
    obtain ⟨ids, hids, hall⟩ := ih hgrow.wellFormed
    have hrest := Graph.grows_putAll hgrow.wellFormed nouns
    refine ⟨(g.put a).1 :: ids, .cons (hd.extend hrest.extend) hids, ?_⟩
    have hne : part ++ parts.flatten ≠ [] := List.append_ne_nil_of_left_ne_nil hpart.ne_nil _
    rw [List.flatten_cons, readAll_of_ne_nil g hne, read_of_spells wf hpart, hall]
    rfl

end Reader

/-! ## Asking a stream -/

namespace Stream

inductive Ask where
  | more
  | read
deriving DecidableEq

inductive Reply where
  | more (any : Bool)
  | read (outcome : Except ReadError NodeId)

def Reply.outcome? : Reply → Option (Except ReadError NodeId)
  | more _ => none
  | read outcome => some outcome

/-- Ask a stream for one thing after another. There are the replies, and the graph at the end. -/
def serve (g : Graph) (s : Stream) : List Ask → List Reply × Graph
  | [] => ([], g)
  | .more :: asks =>
    let (any, s) := s.hasMore
    let (replies, g) := serve g s asks
    (.more any :: replies, g)
  | .read :: asks =>
    let reading := read g s
    let (replies, g) := serve reading.graph reading.stream asks
    (.read reading.outcome :: replies, g)

def Ask.atEnd : Ask → Reply
  | more => .more false
  | read => .read (.error .unexpectedEnd)

variable {s s' : Stream}

/-- All replies are made by the tokens to come. -/
theorem serve_congr (g : Graph) (h : s.tokens = s'.tokens) (asks : List Ask) :
    serve g s asks = serve g s' asks := by
  induction asks generalizing g s s' with
  | nil => rfl
  | cons ask asks ih =>
    cases ask with
    | more =>
      obtain ⟨hany, hsame⟩ := s.hasMore_eq
      obtain ⟨hany', hsame'⟩ := s'.hasMore_eq
      simp only [serve]
      rw [hany, hany', h, ih g (hsame.trans (h.trans hsame'.symm))]
    | read =>
      have hread : (read g s).ofTokens = (read g s').ofTokens := by rw [read_eq, read_eq, h]
      obtain ⟨houtcome, htokens, hgraph⟩ := Reader.Reading.mk.inj hread
      simp only [serve]
      rw [houtcome, hgraph, ih _ htokens]

theorem serve_filter (g : Graph) (s : Stream) (asks : List Ask) :
    (serve g s asks).1.filterMap Reply.outcome? =
        (serve g s (asks.filter (· = .read))).1.filterMap Reply.outcome? ∧
      (serve g s asks).2 = (serve g s (asks.filter (· = .read))).2 := by
  induction asks generalizing g s with
  | nil => exact ⟨rfl, rfl⟩
  | cons ask asks ih =>
    cases ask with
    | more =>
      obtain ⟨houtcomes, hgraph⟩ := ih g s.hasMore.2
      rw [serve_congr g s.hasMore_eq.2 (asks.filter (· = .read))] at houtcomes hgraph
      exact ⟨houtcomes, hgraph⟩
    | read =>
      obtain ⟨houtcomes, hgraph⟩ := ih (read g s).graph (read g s).stream
      exact ⟨congrArg ((read g s).outcome :: ·) houtcomes, hgraph⟩

theorem serve_atEnd (g : Graph) (hs : s.tokens = []) (asks : List Ask) :
    serve g s asks = (asks.map Ask.atEnd, g) := by
  induction asks generalizing s with
  | nil => rfl
  | cons ask asks ih =>
    cases ask with
    | more =>
      obtain ⟨hany, hsame⟩ := s.hasMore_eq
      simp only [serve]
      rw [hany, hs, ih (hsame.trans hs)]
      rfl
    | read =>
      have hread := read_eq g s
      rw [hs] at hread
      obtain ⟨houtcome, htokens, hgraph⟩ := Reader.Reading.mk.inj hread
      simp only [serve]
      rw [houtcome, hgraph, ih htokens]
      rfl

/-! ## Reading a stream to its end -/

theorem readAll_eq (g : Graph) (s : Stream) :
    (readAll g s).stream.tokens = [] ∧
      Reader.readAll g s.tokens = ((readAll g s).outcomes, (readAll g s).graph) := by
  fun_induction readAll g s with
  | case1 g s s' hs =>
    obtain ⟨hany, hsame⟩ := s.hasMore_eq
    rw [hs] at hany hsame
    have hnil : s.tokens = [] := by simpa using hany.symm
    rw [hnil, Reader.readAll_nil]
    exact ⟨hsame.trans hnil, rfl⟩
  | case2 g s s' hs reading more ih =>
    obtain ⟨token, rest, htokens, htokens'⟩ := exists_tokens_of_hasMore hs
    have hread : reading.ofTokens = Reader.read g s.tokens := by
      rw [read_eq, htokens, htokens']
    obtain ⟨hend, hall⟩ := ih
    refine ⟨hend, ?_⟩
    rw [Reader.readAll_of_ne_nil g (by simp [htokens]), ← hread]
    exact congrArg (fun all => (reading.outcome :: all.1, all.2)) hall

/-- To read for as long as there is more is to read as many times. -/
theorem serve_readAll (g : Graph) (s : Stream) :
    serve g s (List.replicate (readAll g s).outcomes.length .read) =
      ((readAll g s).outcomes.map .read, (readAll g s).graph) := by
  fun_induction readAll g s with
  | case1 g s s' hs => rfl
  | case2 g s s' hs reading more ih =>
    obtain ⟨token, rest, htokens, htokens'⟩ := exists_tokens_of_hasMore hs
    rw [serve_congr g (htokens.trans htokens'.symm), List.length_cons, List.replicate_succ, serve]
    exact congrArg (fun left => (Reply.read reading.outcome :: left.1, left.2)) ih

/-- Where there is more, the tokens that a reading leaves are the last ones, and not all of them. -/
theorem read_takes (g : Graph) (hs : s.hasMore.1 = true) :
    (read g s.hasMore.2).stream.tokens <:+ s.tokens ∧
      (read g s.hasMore.2).stream.tokens.length < s.tokens.length := by
  refine ⟨?_, length_tokens_read_lt g (Prod.ext hs rfl)⟩
  have hsuffix := Reader.rest_readWithin_suffix g [] s.hasMore.2.tokens
  rwa [← readWithin_eq, s.hasMore_eq.2] at hsuffix

/-- Reading for as long as there is more ends within as many readings as there are tokens, each of
which takes at least one, and then there is nothing more for good. Asking whether there is more
is free at any time. The lines of a text that hold one noun each are read as these nouns, and
nothing else. -/
theorem readAll_ends (g : Graph) (text : String) :
    let all := readAll g (.of text)
    all.outcomes.length ≤ (Text.tokens text).length ∧
    serve g (.of text) (List.replicate all.outcomes.length .read) =
      (all.outcomes.map .read, all.graph) ∧
    (∀ asks, serve all.graph all.stream asks = (asks.map Ask.atEnd, all.graph)) ∧
    (∀ (h : Graph) (s : Stream), s.hasMore.1 = true →
      (read h s.hasMore.2).stream.tokens <:+ s.tokens ∧
        (read h s.hasMore.2).stream.tokens.length < s.tokens.length) ∧
    (∀ (h : Graph) (s : Stream) (asks : List Ask),
      (serve h s asks).1.filterMap Reply.outcome? =
          (serve h s (asks.filter (· = .read))).1.filterMap Reply.outcome? ∧
        (serve h s asks).2 = (serve h s (asks.filter (· = .read))).2) ∧
    ∀ lines nouns, g.WellFormed → List.Forall₂ ReadsAs lines nouns →
      text = "\n".intercalate lines →
      List.Forall₂ (fun outcome a => ∃ id, outcome = .ok id ∧ all.graph.Denotes id a)
        all.outcomes nouns := by
  intro all
  obtain ⟨hend, hall⟩ := readAll_eq g (.of text)
  rw [tokens_of] at hall
  refine ⟨?_, serve_readAll g (.of text), serve_atEnd all.graph hend, fun h s => read_takes h,
    serve_filter, ?_⟩
  · have hlength := Reader.length_readAll_le g (Text.tokens text)
    rwa [hall] at hlength
  · rintro lines nouns wf hlines rfl
    have hs : List.Forall₂ Spells (lines.map Text.tokens) nouns :=
      List.forall₂_map_left_iff.mpr (hlines.imp fun _ _ => readsAs_iff.mp)
    obtain ⟨ids, hids, hspelled⟩ := Reader.readAll_of_spells wf hs
    rw [← tokens_lines, hall] at hspelled
    obtain ⟨houtcomes, hgraph⟩ := Prod.mk.inj hspelled
    rw [show all.outcomes = ids.map .ok from houtcomes, List.forall₂_map_left_iff,
      show all.graph = g.putAll nouns from hgraph]
    exact hids.imp fun id a hd => ⟨id, rfl, hd⟩

/-- A pair with a comment behind it, a term and a number, each on a line of its own. -/
theorem readAll_ends_lines :
    let lines := ["[1 2] :: one ] more", "%nest", "0xff"]
    let all := readAll (.empty ⟨0⟩) (.of ("\n".intercalate lines))
    ∃ nouns : List Noun, List.Forall₂ ReadsAs lines nouns ∧ all.outcomes.length = 3 ∧
      List.Forall₂ (fun outcome a => ∃ id, outcome = .ok id ∧ all.graph.Denotes id a)
        all.outcomes nouns ∧
      serve all.graph all.stream [.more, .read] =
        ([.more false, .read (.error .unexpectedEnd)], all.graph) := by
  intro lines all
  have hpair : Spells (Text.tokens "[1 2] :: one ] more") (.cell (.atom 1) (.atom 2)) := by
    have hinside : Spelling [.atom "1", .atom "2"] (.row (.atom 1) [.atom 2]) :=
      .more (.atom (by rfl)) (.last (.atom (by rfl)))
    exact .bracket hinside
  have hterm : Spells (Text.tokens "%nest") (.atom (Graph.ofBytes "nest".toUTF8.toList)) := .term
  have hnumber : Spells (Text.tokens "0xff") (.atom 255) := .atom (by rfl)
  have hlines : List.Forall₂ ReadsAs lines _ :=
    .cons (readsAs_iff.mpr hpair) (.cons (readsAs_iff.mpr hterm)
      (.cons (readsAs_iff.mpr hnumber) .nil))
  obtain ⟨-, -, hend, -, -, hread⟩ := readAll_ends (.empty ⟨0⟩) ("\n".intercalate lines)
  have houtcomes := hread lines _ (Graph.wellFormed_empty ⟨0⟩) hlines rfl
  exact ⟨_, hlines, houtcomes.length_eq, houtcomes, hend [.more, .read]⟩

end Stream
end NockDispatch.Text
