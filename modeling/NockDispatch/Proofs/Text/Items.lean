import Mathlib.Algebra.BigOperators.Group.Finset.Basic
import Mathlib.Algebra.Order.BigOperators.Group.Finset
import Mathlib.Data.List.Chain
import Mathlib.Data.Nat.Count
import NockDispatch.Proofs.Text.Shortening

/-!
# The items of short texts

The spaces of a text set its items apart, each of which is an atom or three dots, with brackets
around it. A short text has one item, and for each bracket that is shown one more for every element
of the bracket but the first: also an element beyond the limits has its dots. So the limits on the
depth and on the number of elements do not limit the items. These are limited for some nouns just
when the width of the brackets that are shown is.
-/

namespace NockDispatch.Text

/-- The items of a text: what stands between its spaces. -/
def items (text : String) : List (List Char) := text.toList.splitOn ' '

theorem length_splitOn (text : List Char) : (text.splitOn ' ').length = text.count ' ' + 1 := by
  induction text with
  | nil => rfl
  | cons c text ih =>
    rw [List.splitOn_cons_eq_if_modifyHead, List.count_cons]
    split
    · rw [List.length_cons, ih]
    · rw [List.length_modifyHead, ih, Nat.add_zero]

namespace Piece

variable {deepest most i j : Nat} {marks pieces left right : List Piece} {piece : Piece}
  {shown : Nat → Bool}

/-! ## Rows of elements -/

/-- A mark that is an item of its own. -/
def isItem (piece : Piece) : Bool := piece != .opening && piece != .closing

/-- Marks that begin and end as elements do, without an empty bracket. -/
structure Row (pieces : List Piece) : Prop where
  first : ∃ piece ∈ pieces.head?, piece ≠ .closing
  last : ∃ piece ∈ pieces.getLast?, piece ≠ .opening
  filled : pieces.IsChain fun left right => left = .opening → right ≠ .closing

theorem row_singleton (hopening : piece ≠ .opening) (hclosing : piece ≠ .closing) : Row [piece] :=
  ⟨⟨piece, rfl, hclosing⟩, ⟨piece, rfl, hopening⟩, .singleton piece⟩

theorem row_atom (value : Nat) : Row [.atom value] := row_singleton nofun nofun

theorem row_cut : Row [.cut] := row_singleton nofun nofun

theorem Row.append (hl : Row left) (hr : Row right) : Row (left ++ right) := by
  obtain ⟨first, hfirst, hclosing⟩ := hl.first
  obtain ⟨last, hlast, hopening⟩ := hr.last
  refine ⟨⟨first, List.mem_head?_append_of_mem_head? hfirst, hclosing⟩,
    ⟨last, List.mem_getLast?_append_of_mem_getLast? hlast, hopening⟩, ?_⟩
  refine List.isChain_append.mpr ⟨hl.filled, hr.filled, fun piece hpiece _ _ hopening => ?_⟩
  obtain ⟨other, hother, hne⟩ := hl.last
  exact absurd (Option.mem_unique hother hpiece ▸ hopening) hne

theorem Row.bracket (hr : Row pieces) : Row (.opening :: pieces ++ [.closing]) := by
  obtain ⟨first, hfirst, hclosing⟩ := hr.first
  obtain ⟨last, hlast, hopening⟩ := hr.last
  refine ⟨⟨.opening, rfl, by decide⟩, ⟨.closing, List.getLast?_concat, by decide⟩, ?_⟩
  rw [List.isChain_append, List.isChain_cons]
  refine ⟨⟨fun piece hpiece _ => ?_, hr.filled⟩, .singleton _, fun piece hpiece _ _ heq => ?_⟩
  · exact Option.mem_unique hfirst hpiece ▸ hclosing
  · have hend : last ∈ ([opening] ++ pieces).getLast? :=
      List.mem_getLast?_append_of_mem_getLast? hlast
    exact absurd (Option.mem_unique hpiece hend ▸ heq) hopening

theorem row_whole (a : Noun) : Row (whole a) ∧ Row (wholeTail a) := by
  induction a with
  | atom value => exact ⟨row_atom value, row_atom value⟩
  | cell a b iha ihb =>
    have htail := iha.1.append ihb.2
    exact ⟨htail.bracket, htail⟩

theorem row_run (a : Noun) : ∀ s : Scan, s.reached = true →
    Row (s.run deepest most (whole a)) ∧ Row (s.run deepest most (wholeTail a)) := by
  have hcut : ∀ (a : Noun) (s : Scan), s.reached = true → s.fits deepest most = false →
      Row (s.run deepest most (whole a)) := by
    intro a s hr hf
    rw [(Scan.run_whole_cut hr hf a).1]
    exact row_cut
  induction a with
  | atom value =>
    intro s hr
    have hone : Row (s.run deepest most (whole (.atom value))) := by
      cases hf : s.fits deepest most with
      | false => exact hcut _ s hr hf
      | true =>
        have hrun : s.run deepest most (whole (.atom value)) = [.atom value] := by
          simp [whole, Scan.run, Scan.kept, Scan.shows, hr, hf]
        rw [hrun]
        exact row_atom value
    exact ⟨hone, hone⟩
  | cell a b iha ihb =>
    have hrow : ∀ s : Scan, s.reached = true →
        Row (s.run deepest most (wholeTail (.cell a b))) := by
      intro s hr
      rw [wholeTail_cell, Scan.run_append]
      exact (iha s hr).1.append (ihb _ (Scan.reached_after hr a)).2
    refine fun s hr => ⟨?_, hrow s hr⟩
    cases hf : s.fits deepest most with
    | false => exact hcut _ s hr hf
    | true =>
      rw [(Scan.run_whole_cell hr hf a b).1]
      exact (hrow _ (by simpa [Scan.reached] using hr)).bracket

theorem count_text (piece : Piece) : piece.text.toList.count ' ' = 0 := by
  cases piece with
  | opening | closing | cut => decide
  | atom value =>
    apply List.count_eq_zero_of_not_mem
    rw [text, toList_toString]
    intro hspace
    exact absurd (Nat.isDigit_of_mem_toDigits (by decide) (by decide) hspace) (by decide)

theorem count_between (left right : Piece) :
    (left.between right).toList.count ' ' = if left.apart right then 1 else 0 := by
  rw [between]
  split <;> rfl

/-- In a row, each item but the first has a space in front of it. -/
theorem count_textOf (hlast : ∃ last ∈ (piece :: pieces).getLast?, last ≠ .opening)
    (hfilled : (piece :: pieces).IsChain fun left right => left = .opening → right ≠ .closing) :
    (textOf (piece :: pieces)).toList.count ' ' + (if piece = .closing then 0 else 1) =
      (piece :: pieces).countP isItem := by
  induction pieces generalizing piece with
  | nil =>
    have hopening : piece ≠ .opening := by simpa using hlast
    have htext : textOf [piece] = piece.text := rfl
    rw [htext, count_text]
    cases piece with
    | opening => exact absurd rfl hopening
    | closing | atom | cut => rfl
  | cons next pieces ih =>
    rw [List.getLast?_cons_cons] at hlast
    obtain ⟨hnext, hrest⟩ := List.isChain_cons_cons.mp hfilled
    rw [textOf_cons, textAfter_eq, String.toList_append, String.toList_append, List.count_append,
      List.count_append, count_text, count_between, List.countP_cons, ← ih hlast hrest]
    cases piece with
    | opening => simp [apart, isItem, hnext rfl]
    | closing | atom | cut =>
      by_cases hclosing : next = .closing
      · simp [apart, isItem, hclosing]
      · simp [apart, isItem, hclosing, Nat.add_comm]

theorem Row.length_items (hr : Row pieces) :
    (items (textOf pieces)).length = pieces.countP isItem := by
  cases pieces with
  | nil =>
    obtain ⟨first, hfirst, -⟩ := hr.first
    cases hfirst
  | cons piece pieces =>
    have hclosing : piece ≠ .closing := by simpa using hr.first
    have hcount := count_textOf hr.last hr.filled
    rw [if_neg hclosing] at hcount
    rw [items, length_splitOn, hcount]

/-! ## Brackets and their elements -/

/-- The element at `j` stands in the bracket at `i`, and in none further inside. -/
def IsElement (marks : List Piece) (i j : Nat) : Prop :=
  (around marks j).head? = some i ∧ marks[j]? ≠ some .closing

/-- An element in brackets that are all shown. -/
def IsReached (marks : List Piece) (shown : Nat → Bool) (j : Nat) : Prop :=
  reached marks shown j = true ∧ marks[j]? ≠ some .closing

def IsBracket (marks : List Piece) (shown : Nat → Bool) (i : Nat) : Prop :=
  marks[i]? = some .opening ∧ shown i = true

instance (marks : List Piece) (i : Nat) : DecidablePred (IsElement marks i) :=
  fun _ => inferInstanceAs (Decidable (_ ∧ _))

instance (marks : List Piece) (shown : Nat → Bool) : DecidablePred (IsReached marks shown) :=
  fun _ => inferInstanceAs (Decidable (_ ∧ _))

instance (marks : List Piece) (shown : Nat → Bool) : DecidablePred (IsBracket marks shown) :=
  fun _ => inferInstanceAs (Decidable (_ ∧ _))

/-- How many elements the bracket at a position has. -/
def width (marks : List Piece) (i : Nat) : Nat := Nat.count (IsElement marks i) marks.length

def brackets (marks : List Piece) (shown : Nat → Bool) : Finset Nat :=
  (Finset.range marks.length).filter (IsBracket marks shown)

theorem mem_brackets : i ∈ brackets marks shown ↔ IsBracket marks shown i := by
  rw [brackets, Finset.mem_filter, Finset.mem_range, and_iff_right_iff_imp]
  rintro ⟨hi, -⟩
  exact (List.getElem?_eq_some_iff.mp hi).1

/-- The innermost bracket around a position begins with an opening mark, and the other brackets
around the position are those around this mark. -/
theorem around_eq_cons {outer : List Nat} (hj : around marks j = i :: outer) :
    marks[i]? = some .opening ∧ around marks i = outer := by
  induction j using Nat.strongRecOn generalizing i outer with
  | _ j ih =>
    cases j with
    | zero => cases hj
    | succ j =>
      cases hpiece : marks[j]? with
      | none =>
        rw [around, take_succ_of_none hpiece, ← around] at hj
        exact ih j (Nat.lt_succ_self j) hj
      | some piece =>
        rw [around_succ hpiece] at hj
        cases piece with
        | opening =>
          cases hj
          exact ⟨hpiece, rfl⟩
        | atom | cut => exact ih j (Nat.lt_succ_self j) hj
        | closing =>
          cases hinner : around marks j with
          | nil =>
            rw [hinner] at hj
            cases hj
          | cons inner rest =>
            rw [hinner] at hj
            obtain rfl : rest = i :: outer := hj
            have hmem : inner ∈ around marks j := by simp [hinner]
            have hlt : inner < j := mem_around_lt j inner hmem
            exact ih inner (Nat.lt_succ_of_lt hlt) (ih j (Nat.lt_succ_self j) hinner).2

theorem suffix_inside {s : Scan} {k : Nat} (hk : k ≤ marks.length)
    (hmarks : ∀ s : Scan, s.brackets <:+ (s.after deepest most (marks.take k)).brackets) :
    ∃ bracket, (bracket :: s.brackets) <:+
      (s.after deepest most ((opening :: marks ++ [closing]).take (k + 1))).brackets := by
  have hinside := hmarks (s.next deepest most .opening)
  rw [Scan.next_opening] at hinside
  rw [List.cons_append, List.take_succ_cons, List.take_append_of_le_length hk, Scan.after_cons,
    Scan.next_opening]
  exact ⟨_, hinside⟩

theorem suffix_after_take (a : Noun) : ∀ (s : Scan) (k : Nat),
    s.brackets <:+ (s.after deepest most ((whole a).take k)).brackets ∧
      s.brackets <:+ (s.after deepest most ((wholeTail a).take k)).brackets := by
  induction a with
  | atom value =>
    have hatom : ∀ (s : Scan) (k : Nat),
        s.brackets <:+ (s.after deepest most ([.atom value].take k)).brackets := by
      intro s k
      cases k with
      | zero => exact List.suffix_rfl
      | succ k =>
        rw [List.take_succ_cons, List.take_nil]
        exact List.suffix_rfl
    exact fun s k => ⟨hatom s k, hatom s k⟩
  | cell a b iha ihb =>
    have htail : ∀ (s : Scan) (k : Nat),
        s.brackets <:+ (s.after deepest most ((wholeTail (.cell a b)).take k)).brackets := by
      intro s k
      rw [wholeTail_cell, List.take_append, Scan.after_append]
      exact (iha s k).1.trans (ihb _ _).2
    refine fun s k => ⟨?_, htail s k⟩
    by_cases hk : k < (whole (.cell a b)).length
    · cases k with
      | zero => exact List.suffix_rfl
      | succ k =>
        have hinside : k ≤ (wholeTail (.cell a b)).length := by
          simp only [whole_cell, List.length_append, List.length_cons, List.length_nil] at hk
          omega
        obtain ⟨bracket, hsuffix⟩ := suffix_inside (s := s) hinside fun s => htail s k
        exact (List.suffix_cons bracket s.brackets).trans hsuffix
    · rw [List.take_of_length_le (Nat.le_of_not_lt hk), (Scan.brackets_after (.cell a b) s).1]

theorem around_ne_nil {a : Noun} (hs : Shows deepest most (whole a) shown) (hpos : 0 < j)
    (hlt : j < (whole a).length) : around (whole a) j ≠ [] := by
  cases a with
  | atom value =>
    rw [whole, List.length_singleton] at hlt
    omega
  | cell a b =>
    obtain ⟨k, rfl⟩ := Nat.exists_eq_add_of_le' hpos
    have hinside : k ≤ (wholeTail (.cell a b)).length := by
      simp only [whole_cell, List.length_append, List.length_cons, List.length_nil] at hlt
      omega
    obtain ⟨bracket, hsuffix⟩ := suffix_inside (s := Scan.start) hinside fun s =>
      (suffix_after_take (.cell a b) s k).2
    rw [← whole_cell, Scan.after_take_of_shows hs] at hsuffix
    intro hnil
    rw [Scan.front, hnil, List.map_nil, List.suffix_nil] at hsuffix
    cases hsuffix

theorem reached_iff (hs : Shows deepest most marks shown) {outer : List Nat}
    (hj : around marks j = i :: outer) : reached marks shown j = true ↔ shown i = true := by
  obtain ⟨hopening, houter⟩ := around_eq_cons hj
  rw [reached, hj, List.all_cons, ← houter, Bool.and_eq_true, and_iff_left_iff_imp]
  exact fun hi => ((hs.element hopening nofun).mp hi).1

/-- An element in brackets that are all shown is the noun itself, or it is an element of just one of
the brackets that are shown. -/
theorem isReached_eq_sum {a : Noun} (hs : Shows deepest most (whole a) shown)
    (hj : j < (whole a).length) : (if IsReached (whole a) shown j then 1 else 0) =
      (if j = 0 then 1 else 0) +
        ∑ i ∈ brackets (whole a) shown, if IsElement (whole a) i j then 1 else 0 := by
  cases haround : around (whole a) j with
  | nil =>
    obtain rfl : j = 0 := by
      by_contra hzero
      exact around_ne_nil hs (Nat.pos_of_ne_zero hzero) hj haround
    have hfirst : (whole a)[0]? ≠ some .closing := by
      obtain ⟨first, hfirst, hclosing⟩ := (row_whole a).1.first
      rw [← List.head?_eq_getElem?, Option.mem_def.mp hfirst]
      simpa using hclosing
    have hreached : IsReached (whole a) shown 0 := ⟨rfl, hfirst⟩
    have hnone : ∀ i, ¬ IsElement (whole a) i 0 := fun i hi => by cases hi.1
    simp [hreached, hnone]
  | cons i outer =>
    have hzero : j ≠ 0 := by
      rintro rfl
      cases haround
    have hbracket : i ∈ brackets (whole a) shown ↔ shown i = true := by
      rw [mem_brackets, IsBracket, and_iff_right (around_eq_cons haround).1]
    have helement : ∀ other, IsElement (whole a) other j ↔
        i = other ∧ (whole a)[j]? ≠ some .closing := by
      simp [IsElement, haround]
    simp only [IsReached, reached_iff hs haround, helement, if_neg hzero, Nat.zero_add, ← hbracket]
    by_cases hclosing : (whole a)[j]? = some .closing
    · simp [hclosing]
    · simp only [ne_eq, hclosing, not_false_eq_true, and_true, Finset.sum_ite_eq]

theorem count_isReached {a : Noun} (hs : Shows deepest most (whole a) shown)
    (hj : j ≤ (whole a).length) :
    Nat.count (IsReached (whole a) shown) j = (if j = 0 then 0 else 1) +
      ∑ i ∈ brackets (whole a) shown, Nat.count (IsElement (whole a) i) j := by
  induction j with
  | zero => simp
  | succ j ih =>
    simp only [Nat.count_succ, Finset.sum_add_distrib]
    rw [ih (Nat.le_of_succ_le hj), isReached_eq_sum hs hj]
    split <;> simp <;> omega

/-- Each element in brackets that are shown has an item, but those that are brackets and are shown
themselves. -/
theorem countP_run (hs : Shows deepest most marks shown) (hj : j ≤ marks.length) :
    (Scan.start.run deepest most (marks.take j)).countP isItem +
      Nat.count (IsBracket marks shown) j = Nat.count (IsReached marks shown) j := by
  induction j with
  | zero => simp [Scan.run]
  | succ j ih =>
    obtain ⟨piece, hpiece⟩ : ∃ piece, marks[j]? = some piece :=
      ⟨_, List.getElem?_eq_getElem hj⟩
    have hshown := Scan.shows_iff.mp hs j piece hpiece
    -- The mark stays, or it leaves dots, or it is in a bracket that is hidden and leaves nothing.
    have hkept : (Scan.run deepest most (Scan.front marks shown j) [piece]).countP isItem +
        (if IsBracket marks shown j then 1 else 0) =
          if IsReached marks shown j then 1 else 0 := by
      have hrun : Scan.run deepest most (Scan.front marks shown j) [piece] =
          if shown j then [piece] else if reached marks shown j then [.cut] else [] := by
        simp [Scan.run, Scan.kept, ← hshown, Scan.reached_front]
      simp only [hrun, IsBracket, IsReached, hpiece]
      by_cases hshows : shown j = true
      · have hreached : reached marks shown j = true := by
          by_cases hclosing : piece = .closing
          · exact (hs.closing (hclosing ▸ hpiece)).mp hshows
          · exact ((hs.element hpiece hclosing).mp hshows).1
        cases piece <;> simp [hshows, hreached, isItem]
      · by_cases hreached : reached marks shown j = true
        · have hclosing : piece ≠ .closing := by
            rintro rfl
            exact hshows ((hs.closing hpiece).mpr hreached)
          simp [hshows, hreached, hclosing, isItem]
        · simp [hshows, hreached]
    rw [take_succ_of_getElem? hpiece, Scan.run_append, Scan.after_take_of_shows hs,
      List.countP_append, Nat.count_succ, Nat.count_succ, ← ih (Nat.le_of_succ_le hj), ← hkept]
    omega

theorem shownBefore_le_succ (j : Nat) :
    shownBefore marks shown j ≤ shownBefore marks shown (j + 1) := by
  cases hpiece : marks[j]? with
  | none => rw [shownBefore, shownBefore, take_succ_of_none hpiece]
  | some piece =>
    rw [shownBefore_succ hpiece]
    exact Nat.le_add_right _ _

theorem count_isBracket_le (j : Nat) :
    Nat.count (IsBracket marks shown) j ≤ shownBefore marks shown j := by
  induction j with
  | zero => exact Nat.le_refl 0
  | succ j ih =>
    rw [Nat.count_succ]
    by_cases hj : IsBracket marks shown j
    · rw [shownBefore_succ hj.1, hj.2, if_pos hj]
      exact Nat.add_le_add_right ih 1
    · rw [if_neg hj]
      exact ih.trans (shownBefore_le_succ j)

theorem card_brackets (marks : List Piece) (shown : Nat → Bool) :
    (brackets marks shown).card = Nat.count (IsBracket marks shown) marks.length := by
  rw [Nat.count_eq_card_filter_range, brackets]

/-- A noun has one item, and for each bracket that is shown as many more as the bracket has elements
behind its first. -/
theorem countP_run_whole {a : Noun} (hs : Shows deepest most (whole a) shown) :
    (Scan.start.run deepest most (whole a)).countP isItem + (brackets (whole a) shown).card =
      1 + ∑ i ∈ brackets (whole a) shown, width (whole a) i := by
  have hlength : (whole a).length ≠ 0 := by cases a <;> simp [whole]
  have hrun := countP_run hs (Nat.le_refl (whole a).length)
  rw [List.take_length, count_isReached hs (Nat.le_refl _), if_neg hlength] at hrun
  rw [card_brackets, hrun]
  rfl

theorem width_pos {a : Noun} (hi : (whole a)[i]? = some .opening) : 0 < width (whole a) i := by
  have hrow := (row_whole a).1
  obtain ⟨hlt, hopening⟩ := List.getElem?_eq_some_iff.mp hi
  have hnext : i + 1 < (whole a).length := by
    obtain ⟨last, hlast, hne⟩ := hrow.last
    rw [Option.mem_def, List.getLast?_eq_getElem?] at hlast
    by_contra hge
    have hend : (whole a).length - 1 = i := by omega
    rw [hend, hi] at hlast
    exact hne (Option.some.inj hlast).symm
  have helement : IsElement (whole a) i (i + 1) := by
    rw [IsElement, around_succ hi, List.getElem?_eq_getElem hnext]
    refine ⟨rfl, fun hclosing => ?_⟩
    exact List.isChain_iff_getElem.mp hrow.filled i hnext hopening (Option.some.inj hclosing)
  exact Nat.lt_of_le_of_lt (Nat.zero_le _) (Nat.count_strict_mono helement hnext)

theorem width_eq_zero (hi : marks[i]? ≠ some .opening) : width marks i = 0 := by
  rw [width, Nat.count_iff_forall_not]
  intro j _ hj
  obtain ⟨outer, haround⟩ := List.head?_eq_some_iff.mp hj.1
  exact hi (around_eq_cons haround).1

theorem width_le_countP {a : Noun} (hs : Shows deepest most (whole a) shown)
    (hi : shown i = true) :
    width (whole a) i ≤ (Scan.start.run deepest most (whole a)).countP isItem := by
  by_cases hopening : (whole a)[i]? = some .opening
  · have hmem : i ∈ brackets (whole a) shown := mem_brackets.mpr ⟨hopening, hi⟩
    have hcount := countP_run_whole hs
    have hothers : ((brackets (whole a) shown).erase i).card ≤
        ∑ j ∈ (brackets (whole a) shown).erase i, width (whole a) j := by
      rw [Finset.card_eq_sum_ones]
      exact Finset.sum_le_sum fun j hj =>
        width_pos (mem_brackets.mp (Finset.mem_of_mem_erase hj)).1
    rw [← Finset.add_sum_erase _ _ hmem, ← Finset.card_erase_add_one hmem] at hcount
    omega
  · rw [width_eq_zero hopening]
    exact Nat.zero_le _

/-- Within the limits no bracket of the noun is shown that has more elements than `widest`. -/
def Narrow (deepest most widest : Nat) (a : Noun) : Prop :=
  ∀ shown, Shows deepest most (whole a) shown → ∀ i, shown i = true → width (whole a) i ≤ widest

theorem Narrow.countP_le {a : Noun} {widest : Nat} (ha : Narrow deepest most widest a) :
    (Scan.start.run deepest most (whole a)).countP isItem ≤ 1 + most * (widest - 1) := by
  obtain ⟨shown, hs⟩ := Scan.exists_shows deepest most (whole a)
  have hcount := countP_run_whole hs
  have hsum : ∑ i ∈ brackets (whole a) shown, width (whole a) i ≤
      ∑ i ∈ brackets (whole a) shown, (widest - 1 + 1) := by
    refine Finset.sum_le_sum fun i hi => ?_
    have hle := ha shown hs i (mem_brackets.mp hi).2
    omega
  have hmany : (brackets (whole a) shown).card ≤ most := by
    rw [card_brackets]
    exact (count_isBracket_le _).trans (hs.shownBefore_le _)
  rw [Finset.sum_const, smul_eq_mul, Nat.mul_succ] at hsum
  have hmost := Nat.mul_le_mul_right (widest - 1) hmany
  omega

end Piece

open Piece

variable {g : Graph} {n : NodeId} {a : Noun}

theorem length_items_writeShort (wf : g.WellFormed) (hd : g.Denotes n a) :
    (items (writeShort g n)).length = (Scan.start.run 8 200 (whole a)).countP isItem := by
  rw [writeShort, Printer.marks_eq_run wf hd, (row_run a Scan.start rfl).1.length_items]

theorem length_items_le (wf : g.WellFormed) (hd : g.Denotes n a) {widest : Nat}
    (ha : Narrow 8 200 widest a) : (items (writeShort g n)).length ≤ 1 + 200 * (widest - 1) := by
  rw [length_items_writeShort wf hd]
  exact ha.countP_le

/-- A list of zeros, as many as given and one more. -/
def zeros (many : Nat) : Noun := ofElements (.atom 0) (List.replicate many (.atom 0))

theorem countP_run_zeros {deepest most : Nat} (many : Nat) : ∀ s : Scan, s.reached = true →
    (s.run deepest most (wholeTail (zeros many))).countP isItem = many + 1 := by
  have hzero : ∀ s : Scan, s.reached = true →
      (s.run deepest most (whole (.atom 0))).countP isItem = 1 := by
    intro s hr
    cases hf : s.fits deepest most with
    | false => rw [(Scan.run_whole_cut hr hf (.atom 0)).1]; rfl
    | true => simp [whole, Scan.run, Scan.kept, Scan.shows, hr, hf, isItem]
  induction many with
  | zero => exact hzero
  | succ many ih =>
    intro s hr
    have hlist : wholeTail (zeros (many + 1)) = whole (.atom 0) ++ wholeTail (zeros many) := rfl
    rw [hlist, Scan.run_append, List.countP_append, hzero s hr,
      ih _ (Scan.reached_after hr (.atom 0)), Nat.add_comm]

theorem length_items_zeros (wf : g.WellFormed) {many : Nat} (hd : g.Denotes n (zeros (many + 1))) :
    (items (writeShort g n)).length = many + 2 := by
  have hcell : zeros (many + 1) = .cell (.atom 0) (zeros many) := rfl
  rw [length_items_writeShort wf hd, hcell, (Scan.run_whole_cell rfl rfl _ _).1, ← hcell,
    List.countP_append, List.countP_cons, countP_run_zeros _ _ rfl]
  rfl

/-- Where the brackets that are shown have at most `widest` elements each, a short text has at most
`1 + 200 * (widest - 1)` items. So one number bounds the items of the short texts of some nouns just
when one number bounds the elements of the brackets that are shown there. -/
theorem writeShort_bounded_iff (P : Noun → Prop) :
    (∀ widest, (∀ a, P a → Narrow 8 200 widest a) →
      ∀ (g : Graph) (n : NodeId) (a : Noun), g.WellFormed → g.Denotes n a → P a →
        (items (writeShort g n)).length ≤ 1 + 200 * (widest - 1)) ∧
    ((∃ bound, ∀ (g : Graph) (n : NodeId) (a : Noun), g.WellFormed → g.Denotes n a → P a →
        (items (writeShort g n)).length ≤ bound) ↔
      ∃ widest, ∀ a, P a → Narrow 8 200 widest a) := by
  refine ⟨fun widest hwidest g n a wf hd ha => length_items_le wf hd (hwidest a ha), ?_, ?_⟩
  · rintro ⟨bound, hbound⟩
    refine ⟨bound, fun a ha shown hs i hi => ?_⟩
    obtain ⟨hgrow, hd⟩ := Graph.grows_put (Graph.wellFormed_empty ⟨0⟩) a
    have hitems := hbound _ _ a hgrow.wellFormed hd ha
    rw [length_items_writeShort hgrow.wellFormed hd] at hitems
    exact (width_le_countP hs hi).trans hitems
  · rintro ⟨widest, hwidest⟩
    exact ⟨_, fun g n a wf hd ha => length_items_le wf hd (hwidest a ha)⟩

/-- No number bounds the items of all short texts: each element of a list has one, however long the
list is. -/
theorem writeShort_unbounded : ¬ ∃ bound, ∀ (g : Graph) (n : NodeId) (a : Noun), g.WellFormed →
    g.Denotes n a → (items (writeShort g n)).length ≤ bound := by
  rintro ⟨bound, hbound⟩
  obtain ⟨hgrow, hd⟩ := Graph.grows_put (Graph.wellFormed_empty ⟨0⟩) (zeros (bound + 1))
  have hitems := hbound _ _ _ hgrow.wellFormed hd
  rw [length_items_zeros hgrow.wellFormed hd] at hitems
  omega

end NockDispatch.Text
