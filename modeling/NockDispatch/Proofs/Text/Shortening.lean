import Mathlib.Combinatorics.Enumerative.DyckWord
import NockDispatch.Proofs.Text.Roundtrip

/-!
# Short texts

What a short text leaves out is told here by the marks of the whole text. An element is shown if
all brackets around it are, and if these are not too many, and if not too many elements are shown
before it. Where a bracket that is shown has an element that is not, there are three dots. The
printer, which walks through a noun with a budget, leaves out just this.
-/

namespace NockDispatch.Text

namespace Piece

variable {deepest most i : Nat} {marks left right : List Piece} {piece : Piece}
  {shown : Nat → Bool}

/-! ## Cuts -/

/-- What is open behind a mark: an opening bracket is put onto what is open in front of it, and a
closing bracket takes the innermost bracket off. -/
def nest {α : Type} (stack : List α) (bracket : α) : Piece → List α
  | opening => bracket :: stack
  | closing => stack.tail
  | _ => stack

/-- The positions of the brackets around a position, the innermost first. -/
def around (marks : List Piece) (i : Nat) : List Nat :=
  (marks.take i).zipIdx.foldl (fun stack (piece, i) => piece.nest stack i) []

/-- How many elements are shown in front of a position. -/
def shownBefore (marks : List Piece) (shown : Nat → Bool) (i : Nat) : Nat :=
  (marks.take i).zipIdx.countP fun (piece, i) => piece != .closing && shown i

def reached (marks : List Piece) (shown : Nat → Bool) (i : Nat) : Bool :=
  (around marks i).all shown

/-- The marks that limits on the depth and on the number of elements leave. -/
structure Shows (deepest most : Nat) (marks : List Piece) (shown : Nat → Bool) : Prop where
  /-- An element is shown where it is not too deep and not too many are shown before it. -/
  element : ∀ {i piece}, marks[i]? = some piece → piece ≠ .closing →
    (shown i = true ↔ reached marks shown i = true ∧ (around marks i).length ≤ deepest ∧
      shownBefore marks shown i < most)
  closing : ∀ {i}, marks[i]? = some .closing → (shown i = true ↔ reached marks shown i = true)

/-- The marks that are shown, with dots for the elements that are missing from brackets that are
shown. -/
def shorten (marks : List Piece) (shown : Nat → Bool) : List Piece :=
  marks.zipIdx.flatMap fun (piece, i) =>
    if shown i then [piece] else if reached marks shown i then [.cut] else []

def Fits (deepest most : Nat) (marks : List Piece) : Prop :=
  (∀ i piece, marks[i]? = some piece → piece ≠ .closing → (around marks i).length ≤ deepest) ∧
    elementCount marks ≤ most

theorem map_nest {α β : Type} (f : α → β) (stack : List α) (bracket : α) (piece : Piece) :
    (piece.nest stack bracket).map f = piece.nest (stack.map f) (f bracket) := by
  cases piece <;> simp [nest]

theorem take_succ_of_getElem? (hi : marks[i]? = some piece) :
    marks.take (i + 1) = marks.take i ++ [piece] := by
  rw [List.take_add_one, hi]
  rfl

theorem zipIdx_take_succ (hi : marks[i]? = some piece) :
    (marks.take (i + 1)).zipIdx = (marks.take i).zipIdx ++ [(piece, i)] := by
  obtain ⟨hlt, -⟩ := List.getElem?_eq_some_iff.mp hi
  have hlength : (marks.take i).length = i := List.length_take_of_le (Nat.le_of_lt hlt)
  rw [take_succ_of_getElem? hi, List.zipIdx_append, hlength, Nat.zero_add]
  rfl

theorem around_succ (hi : marks[i]? = some piece) :
    around marks (i + 1) = piece.nest (around marks i) i := by
  rw [around, zipIdx_take_succ hi, List.foldl_append]
  rfl

theorem shownBefore_succ (hi : marks[i]? = some piece) : shownBefore marks shown (i + 1) =
    shownBefore marks shown i + if piece != .closing && shown i then 1 else 0 := by
  rw [shownBefore, zipIdx_take_succ hi, List.countP_append, List.countP_singleton]
  rfl

theorem take_succ_of_none (hi : marks[i]? = none) : marks.take (i + 1) = marks.take i := by
  rw [List.take_add_one, hi]
  simp

/-! ## Scanning marks -/

/-- Whether the open brackets are shown, the innermost first, and how many elements are. -/
structure Scan where
  brackets : List Bool
  elements : Nat

namespace Scan

def reached (s : Scan) : Bool := s.brackets.all id

def fits (deepest most : Nat) (s : Scan) : Bool :=
  s.brackets.length ≤ deepest && s.elements < most

def shows (deepest most : Nat) (s : Scan) (piece : Piece) : Bool :=
  s.reached && (piece == .closing || s.fits deepest most)

def pass (s : Scan) (piece : Piece) (shown : Bool) : Scan :=
  ⟨piece.nest s.brackets shown, s.elements + if piece != .closing && shown then 1 else 0⟩

def next (deepest most : Nat) (s : Scan) (piece : Piece) : Scan :=
  s.pass piece (s.shows deepest most piece)

/-- What appears for the next mark. -/
def kept (deepest most : Nat) (s : Scan) (piece : Piece) : List Piece :=
  if s.shows deepest most piece then [piece] else if s.reached then [.cut] else []

def after (deepest most : Nat) (s : Scan) (marks : List Piece) : Scan :=
  marks.foldl (next deepest most) s

def run (deepest most : Nat) (s : Scan) : List Piece → List Piece
  | [] => []
  | piece :: rest => s.kept deepest most piece ++ run deepest most (s.next deepest most piece) rest

def start : Scan := ⟨[], 0⟩

variable {s : Scan}

theorem after_cons (s : Scan) (piece : Piece) (marks : List Piece) :
    s.after deepest most (piece :: marks) =
      (s.next deepest most piece).after deepest most marks := rfl

theorem after_append (s : Scan) (left right : List Piece) :
    s.after deepest most (left ++ right) =
      (s.after deepest most left).after deepest most right :=
  List.foldl_append

theorem run_append (s : Scan) (left right : List Piece) :
    s.run deepest most (left ++ right) =
      s.run deepest most left ++ (s.after deepest most left).run deepest most right := by
  induction left generalizing s with
  | nil => rfl
  | cons piece left ih => rw [List.cons_append, run, run, ih, after_cons, List.append_assoc]

/-- The scan in front of a position, if these marks are shown. -/
def front (marks : List Piece) (shown : Nat → Bool) (i : Nat) : Scan :=
  ⟨(around marks i).map shown, shownBefore marks shown i⟩

theorem reached_front : (front marks shown i).reached = Piece.reached marks shown i := by
  rw [reached, front, List.all_map]
  rfl

theorem front_succ (hi : marks[i]? = some piece) :
    front marks shown (i + 1) = (front marks shown i).pass piece (shown i) := by
  rw [front, around_succ hi, shownBefore_succ hi, map_nest]
  rfl

theorem front_succ_of_none (hi : marks[i]? = none) :
    front marks shown (i + 1) = front marks shown i := by
  rw [front, around, shownBefore, take_succ_of_none hi]
  rfl

/-- The limits leave just the marks that are shown by a scan in front of them. -/
theorem shows_iff : Shows deepest most marks shown ↔ ∀ i piece, marks[i]? = some piece →
    shown i = (front marks shown i).shows deepest most piece := by
  have helement : ∀ i, (front marks shown i).fits deepest most = true ↔
      (around marks i).length ≤ deepest ∧ shownBefore marks shown i < most := by
    intro i
    rw [fits, Bool.and_eq_true, decide_eq_true_iff, decide_eq_true_iff, front, List.length_map]
  constructor
  · intro hs i piece hi
    rw [Bool.eq_iff_iff, shows, reached_front, Bool.and_eq_true, Bool.or_eq_true, helement]
    by_cases hpiece : piece = .closing
    · subst hpiece
      simp [hs.closing hi]
    · simp [hs.element hi hpiece, hpiece]
  · intro hall
    constructor
    · intro i piece hi hpiece
      rw [hall i piece hi, shows, reached_front, Bool.and_eq_true, Bool.or_eq_true, helement]
      simp [hpiece]
    · intro i hi
      rw [hall i _ hi, shows, reached_front]
      simp

theorem after_take (hall : ∀ i piece, marks[i]? = some piece →
      start.after deepest most (marks.take i) = front marks shown i →
      shown i = (start.after deepest most (marks.take i)).shows deepest most piece) (i : Nat) :
    start.after deepest most (marks.take i) = front marks shown i := by
  induction i with
  | zero => rfl
  | succ i ih =>
    cases hi : marks[i]? with
    | none => rw [take_succ_of_none hi, ih, front_succ_of_none hi]
    | some piece =>
      have hshown := hall i piece hi ih
      rw [take_succ_of_getElem? hi, after_append, front_succ hi, hshown, ih]
      rfl

theorem after_take_of_shows (hs : Shows deepest most marks shown) (i : Nat) :
    start.after deepest most (marks.take i) = front marks shown i := by
  refine after_take (fun i piece hi hfront => ?_) i
  rw [hfront]
  exact shows_iff.mp hs i piece hi

/-- Some marks are left, whatever the limits are. -/
theorem exists_shows (deepest most : Nat) (marks : List Piece) :
    ∃ shown, Shows deepest most marks shown := by
  let shown (i : Nat) : Bool :=
    (marks[i]?.map ((start.after deepest most (marks.take i)).shows deepest most)).getD false
  have hall : ∀ i piece, marks[i]? = some piece →
      shown i = (start.after deepest most (marks.take i)).shows deepest most piece := by
    intro i piece hi
    simp [shown, hi]
  refine ⟨shown, shows_iff.mpr fun i piece hi => ?_⟩
  rw [hall i piece hi, after_take fun i piece hi _ => hall i piece hi]

theorem run_take (hs : Shows deepest most marks shown) (i : Nat) :
    start.run deepest most (marks.take i) = (marks.take i).zipIdx.flatMap fun (piece, i) =>
      if shown i then [piece] else if Piece.reached marks shown i then [.cut] else [] := by
  induction i with
  | zero => rfl
  | succ i ih =>
    cases hi : marks[i]? with
    | none => rw [take_succ_of_none hi, ih]
    | some piece =>
      have hshown := shows_iff.mp hs i piece hi
      rw [zipIdx_take_succ hi, List.flatMap_append, ← ih, take_succ_of_getElem? hi, run_append,
        after_take_of_shows hs]
      simp [run, kept, ← hshown, reached_front]

/-- A scan shows what the limits leave. -/
theorem run_eq_shorten (hs : Shows deepest most marks shown) :
    start.run deepest most marks = shorten marks shown := by
  have htake := run_take hs marks.length
  rwa [List.take_length] at htake

/-! ## Scanning nouns -/

/-- Behind a noun the same brackets are open as in front of it. -/
theorem brackets_after (a : Noun) : ∀ s : Scan,
    (s.after deepest most (whole a)).brackets = s.brackets ∧
      (s.after deepest most (wholeTail a)).brackets = s.brackets := by
  induction a with
  | atom value => exact fun s => ⟨rfl, rfl⟩
  | cell a b iha ihb =>
    have htail : ∀ s : Scan,
        (s.after deepest most (wholeTail (.cell a b))).brackets = s.brackets := by
      intro s
      rw [wholeTail_cell, after_append, (ihb _).2, (iha _).1]
    refine fun s => ⟨?_, htail s⟩
    have hclosing : ∀ s : Scan, (s.after deepest most [.closing]).brackets = s.brackets.tail :=
      fun s => rfl
    rw [whole_cell, List.cons_append, after_cons, after_append, hclosing, htail]
    rfl

theorem reached_after (hr : s.reached = true) (a : Noun) :
    (s.after deepest most (whole a)).reached = true := by
  rw [reached, (brackets_after a s).1]
  exact hr

theorem shows_closing : s.shows deepest most .closing = s.reached := by
  rw [shows, beq_self_eq_true, Bool.true_or, Bool.and_true]

theorem shows_element (hpiece : piece ≠ .closing) :
    s.shows deepest most piece = (s.reached && s.fits deepest most) := by
  rw [shows, beq_false_of_ne hpiece, Bool.false_or]

theorem next_opening : s.next deepest most .opening =
    ⟨(s.reached && s.fits deepest most) :: s.brackets,
      s.elements + if s.reached && s.fits deepest most then 1 else 0⟩ := by
  rw [next, shows_element (by decide)]
  simp [pass, nest]

theorem run_bracket {inner : Scan} (hinner : s.next deepest most .opening = inner)
    (hm : (inner.after deepest most marks).brackets = inner.brackets) :
    s.run deepest most (.opening :: marks ++ [.closing]) =
        s.kept deepest most .opening ++ inner.run deepest most marks ++
          (if s.reached && s.fits deepest most then [.closing] else []) ∧
      s.after deepest most (.opening :: marks ++ [.closing]) =
        ⟨s.brackets, (inner.after deepest most marks).elements⟩ := by
  have hbrackets : inner.brackets = (s.reached && s.fits deepest most) :: s.brackets := by
    rw [← hinner, next_opening]
  have hreached : (inner.after deepest most marks).reached =
      (s.reached && s.fits deepest most) := by
    rw [reached, hm, hbrackets, List.all_cons, ← reached]
    cases s.reached <;> simp
  constructor
  · rw [List.cons_append, run, hinner, run_append, run, kept.eq_1 deepest most _ .closing,
      shows_closing, hreached]
    cases s.reached && s.fits deepest most <;> simp [run]
  · rw [List.cons_append, after_cons, hinner, after_append, after_cons, next, pass, nest, hm,
      hbrackets]
    rfl

/-- Nothing appears for a row of marks, and nothing changes. -/
def Skips (deepest most : Nat) (s : Scan) (marks : List Piece) : Prop :=
  s.run deepest most marks = [] ∧ s.after deepest most marks = s

theorem Skips.append (hl : s.Skips deepest most left) (hr : s.Skips deepest most right) :
    s.Skips deepest most (left ++ right) := by
  rw [Skips, run_append, after_append, hl.1, hl.2]
  exact hr

theorem run_bracket_hidden (hs : (s.reached && s.fits deepest most) = false)
    (hm : Skips deepest most ⟨false :: s.brackets, s.elements⟩ marks) :
    s.run deepest most (.opening :: marks ++ [.closing]) = s.kept deepest most .opening ∧
      s.after deepest most (.opening :: marks ++ [.closing]) = s := by
  have hinner : s.next deepest most .opening = ⟨false :: s.brackets, s.elements⟩ := by
    rw [next_opening, hs]
    simp
  obtain ⟨hrun, hafter⟩ := run_bracket hinner (congrArg Scan.brackets hm.2)
  rw [hm.1, hs] at hrun
  rw [hm.2] at hafter
  exact ⟨by simpa using hrun, hafter⟩

/-- Nothing appears for a noun in a bracket that is not shown. -/
theorem skips (a : Noun) : ∀ {s : Scan}, s.reached = false →
    s.Skips deepest most (whole a) ∧ s.Skips deepest most (wholeTail a) := by
  induction a with
  | atom value =>
    intro s hs
    have hatom : s.Skips deepest most [.atom value] := by
      simp [Skips, run, after, next, pass, kept, shows, hs, nest]
    exact ⟨hatom, hatom⟩
  | cell a b iha ihb =>
    have htail : ∀ {s : Scan}, s.reached = false → s.Skips deepest most (wholeTail (.cell a b)) :=
      fun hs => (iha hs).1.append (ihb hs).2
    refine fun {s} hs => ⟨?_, htail hs⟩
    have hkept : s.kept deepest most .opening = [] := by simp [kept, shows, hs]
    have hbracket : s.run deepest most (whole (.cell a b)) = s.kept deepest most .opening ∧ _ :=
      run_bracket_hidden (by simp [hs]) (htail (by simp [reached]))
    rw [hkept] at hbracket
    exact hbracket

theorem run_whole_cut (hr : s.reached = true) (hf : s.fits deepest most = false) (a : Noun) :
    s.run deepest most (whole a) = [.cut] ∧ s.after deepest most (whole a) = s := by
  cases a with
  | atom value => simp [whole, run, after, next, pass, kept, shows, hr, hf, nest]
  | cell a b =>
    have hkept : s.kept deepest most .opening = [.cut] := by simp [kept, shows, hr, hf]
    rw [whole_cell, ← hkept]
    exact run_bracket_hidden (by simp [hf]) (skips (.cell a b) (by simp [reached])).2

/-- Within the limits, a bracket appears around what appears for its elements. -/
theorem run_whole_cell (hr : s.reached = true) (hf : s.fits deepest most = true) (a b : Noun) :
    s.run deepest most (whole (.cell a b)) =
        .opening :: run deepest most ⟨true :: s.brackets, s.elements + 1⟩ (wholeTail (.cell a b))
          ++ [.closing] ∧
      s.after deepest most (whole (.cell a b)) = ⟨s.brackets,
        (after deepest most ⟨true :: s.brackets, s.elements + 1⟩
          (wholeTail (.cell a b))).elements⟩ := by
  have hinner : s.next deepest most .opening = ⟨true :: s.brackets, s.elements + 1⟩ := by
    rw [next_opening, hr, hf]
    rfl
  obtain ⟨hrun, hafter⟩ := run_bracket hinner (brackets_after (.cell a b) _).2
  rw [hr, hf] at hrun
  exact ⟨by simpa [whole_cell, kept, shows, hr, hf] using hrun, hafter⟩

end Scan
end Piece

namespace Printer

open Piece

variable {g : Graph} {deepest most : Nat} {s : Scan}

def Page.scan (deepest most : Nat) (s : Scan) (marks pieces : List Piece) : Page :=
  ⟨(s.run deepest most pieces).reverse ++ marks, most - (s.after deepest most pieces).elements⟩

theorem Page.scan_scan (marks left right : List Piece) :
    Page.scan deepest most (s.after deepest most left)
        ((s.run deepest most left).reverse ++ marks) right =
      Page.scan deepest most s marks (left ++ right) := by
  simp [Page.scan, Scan.run_append, Scan.after_append]

theorem element_cut (hf : s.fits deepest most = false) (marks : List Piece) (id : NodeId) :
    element g (deepest + 1 - s.brackets.length) ⟨marks, most - s.elements⟩ id =
      ⟨.cut :: marks, most - s.elements⟩ := by
  have hlimit : ¬ (s.brackets.length ≤ deepest ∧ s.elements < most) := by
    simpa only [Scan.fits, Bool.and_eq_false_iff, decide_eq_false_iff_not, not_and_or] using hf
  cases hlevels : deepest + 1 - s.brackets.length with
  | zero => rfl
  | succ levels =>
    have hbudget : most - s.elements = 0 := by omega
    rw [element, hbudget]
    rfl

theorem exists_limits (hf : s.fits deepest most = true) :
    deepest + 1 - s.brackets.length = (deepest + 1 - (s.brackets.length + 1)) + 1 ∧
      most - s.elements = (most - (s.elements + 1)) + 1 := by
  have hlimit : s.brackets.length ≤ deepest ∧ s.elements < most := by
    simpa only [Scan.fits, Bool.and_eq_true, decide_eq_true_iff] using hf
  omega

theorem element_atom (hf : s.fits deepest most = true) (marks : List Piece) {id : NodeId}
    {value : Nat} (hn : g.node? id = some (.atom value)) :
    element g (deepest + 1 - s.brackets.length) ⟨marks, most - s.elements⟩ id =
      ⟨.atom value :: marks, most - (s.elements + 1)⟩ := by
  obtain ⟨hlevels, hbudget⟩ := exists_limits hf
  rw [hlevels, hbudget, element]
  simp only [hn]
  rfl

theorem element_cell (hf : s.fits deepest most = true) (marks : List Piece) {id head tail : NodeId}
    (hn : g.node? id = some (.cell head tail)) :
    element g (deepest + 1 - s.brackets.length) ⟨marks, most - s.elements⟩ id =
      ((elements g id).foldl
        (fun page id => element g (deepest + 1 - (s.brackets.length + 1)) page id)
        ⟨.opening :: marks, most - (s.elements + 1)⟩).mark .closing := by
  obtain ⟨hlevels, hbudget⟩ := exists_limits hf
  rw [hlevels, hbudget, element]
  simp only [hn]
  rfl

theorem element_whole_cut (hr : s.reached = true) (hf : s.fits deepest most = false)
    (marks : List Piece) (id : NodeId) (a : Noun) :
    element g (deepest + 1 - s.brackets.length) ⟨marks, most - s.elements⟩ id =
      Page.scan deepest most s marks (whole a) := by
  obtain ⟨hrun, hafter⟩ := Scan.run_whole_cut hr hf a
  rw [element_cut hf, Page.scan, hrun, hafter]
  rfl

/-- The levels and the budget of the printer are what the limits leave to an element. -/
theorem element_eq_scan (wf : g.WellFormed) (a : Noun) :
    (∀ {id s} marks, g.Denotes id a → s.reached = true →
      element g (deepest + 1 - s.brackets.length) ⟨marks, most - s.elements⟩ id =
        Page.scan deepest most s marks (whole a)) ∧
    ∀ {id s} marks, g.Denotes id a → s.reached = true →
      (elements g id).foldl
          (fun page id => element g (deepest + 1 - s.brackets.length) page id)
          ⟨marks, most - s.elements⟩ =
        Page.scan deepest most s marks (wholeTail a) := by
  induction a with
  | atom value =>
    have hone : ∀ {id s} marks, g.Denotes id (.atom value) → s.reached = true →
        element g (deepest + 1 - s.brackets.length) ⟨marks, most - s.elements⟩ id =
          Page.scan deepest most s marks [.atom value] := by
      intro id s marks hd hr
      cases hf : s.fits deepest most with
      | false => exact element_whole_cut hr hf marks id (.atom value)
      | true =>
        have hshows : s.shows deepest most (.atom value) = true := by simp [Scan.shows, hr, hf]
        rw [element_atom hf marks hd.node?_atom]
        simp [Page.scan, Scan.run, Scan.after, Scan.next, Scan.pass, Scan.kept, hshows]
    refine ⟨hone, fun marks hd hr => ?_⟩
    rw [elements_atom hd]
    exact hone marks hd hr
  | cell a b iha ihb =>
    have hrow : ∀ {id s} marks, g.Denotes id (.cell a b) → s.reached = true →
        (elements g id).foldl
            (fun page id => element g (deepest + 1 - s.brackets.length) page id)
            ⟨marks, most - s.elements⟩ =
          Page.scan deepest most s marks (wholeTail (.cell a b)) := by
      intro id s marks hd hr
      obtain ⟨head, tail, helements, ha, hb⟩ := elements_cell wf hd
      have hbrackets : (s.after deepest most (whole a)).brackets = s.brackets :=
        (Scan.brackets_after a s).1
      have hr' : (s.after deepest most (whole a)).reached = true := Scan.reached_after hr a
      have htail := ihb.2 ((s.run deepest most (whole a)).reverse ++ marks) hb hr'
      rw [hbrackets, Page.scan_scan] at htail
      rw [helements, List.foldl_cons, iha.1 marks ha hr]
      exact htail
    refine ⟨fun {id s} marks hd hr => ?_, hrow⟩
    cases hf : s.fits deepest most with
    | false => exact element_whole_cut hr hf marks id (.cell a b)
    | true =>
      obtain ⟨head, tail, hn, -, -⟩ := hd.exists_cell
      obtain ⟨hrun, hafter⟩ := Scan.run_whole_cell hr hf a b
      have hinside := hrow (s := ⟨true :: s.brackets, s.elements + 1⟩) (.opening :: marks) hd
        (by simpa [Scan.reached] using hr)
      rw [List.length_cons] at hinside
      rw [element_cell hf marks hn, hinside, Page.scan, Page.scan, hrun, hafter]
      simp [Page.mark]

theorem marks_eq_run (wf : g.WellFormed) {id : NodeId} {a : Noun} (hd : g.Denotes id a) :
    marks g id (deepest + 1) most = Scan.start.run deepest most (whole a) := by
  have hscan : element g (deepest + 1) ⟨[], most⟩ id =
      Page.scan deepest most Scan.start [] (whole a) :=
    (element_eq_scan wf a).1 (s := Scan.start) [] hd rfl
  rw [marks, hscan]
  simp [Page.scan]

end Printer

namespace Piece

variable {deepest most i : Nat} {marks : List Piece} {piece : Piece} {shown : Nat → Bool}

/-! ## What fits -/

theorem mem_around_lt (i : Nat) : ∀ j ∈ around marks i, j < i := by
  induction i with
  | zero => exact fun j hj => absurd hj List.not_mem_nil
  | succ i ih =>
    intro j hj
    cases hi : marks[i]? with
    | none =>
      rw [around, take_succ_of_none hi, ← around] at hj
      exact Nat.lt_succ_of_lt (ih j hj)
    | some piece =>
      rw [around_succ hi] at hj
      cases piece with
      | opening =>
        rcases List.mem_cons.mp hj with rfl | hj
        · exact Nat.lt_succ_self _
        · exact Nat.lt_succ_of_lt (ih j hj)
      | closing => exact Nat.lt_succ_of_lt (ih j (List.mem_of_mem_tail hj))
      | atom | cut => exact Nat.lt_succ_of_lt (ih j hj)

theorem reached_of_forall (hshown : ∀ j < i, shown j = true) : reached marks shown i = true :=
  List.all_eq_true.mpr fun j hj => hshown j (mem_around_lt i j hj)

theorem Shows.shownBefore_le (hs : Shows deepest most marks shown) (i : Nat) :
    shownBefore marks shown i ≤ most := by
  induction i with
  | zero => exact Nat.zero_le most
  | succ i ih =>
    cases hi : marks[i]? with
    | none => rwa [shownBefore, take_succ_of_none hi, ← shownBefore]
    | some piece =>
      rw [shownBefore_succ hi]
      split
      · next hboth =>
        simp only [Bool.and_eq_true, bne_iff_ne] at hboth
        exact ((hs.element hi hboth.1).mp hboth.2).2.2
      · exact ih

theorem shownBefore_eq (i : Nat) (hshown : ∀ j < i, j < marks.length → shown j = true) :
    shownBefore marks shown i = elementCount (marks.take i) := by
  induction i with
  | zero => rfl
  | succ i ih =>
    have hbefore := ih fun j hj => hshown j (Nat.lt_succ_of_lt hj)
    cases hi : marks[i]? with
    | none => rw [shownBefore, take_succ_of_none hi, ← shownBefore, hbefore]
    | some piece =>
      obtain ⟨hlt, -⟩ := List.getElem?_eq_some_iff.mp hi
      rw [shownBefore_succ hi, take_succ_of_getElem? hi, elementCount_append, hbefore,
        hshown i (Nat.lt_succ_self i) hlt, Bool.and_true]
      simp [elementCount, List.countP_singleton]

theorem Shows.forall_iff (hs : Shows deepest most marks shown) :
    (∀ i < marks.length, shown i = true) ↔ Fits deepest most marks := by
  constructor
  · intro hall
    constructor
    · intro i piece hi hpiece
      obtain ⟨hlt, -⟩ := List.getElem?_eq_some_iff.mp hi
      exact ((hs.element hi hpiece).mp (hall i hlt)).2.1
    · have hcount := shownBefore_eq marks.length fun j _ hj => hall j hj
      rw [List.take_length] at hcount
      rw [← hcount]
      exact hs.shownBefore_le marks.length
  · rintro ⟨hdeep, hmany⟩ i
    induction i using Nat.strongRecOn with
    | _ i ih =>
      intro hlt
      have hi : marks[i]? = some marks[i] := List.getElem?_eq_getElem hlt
      have hbefore : ∀ j < i, shown j = true := fun j hj => ih j hj (Nat.lt_trans hj hlt)
      have hreached : reached marks shown i = true := reached_of_forall hbefore
      by_cases hpiece : marks[i] = .closing
      · rw [hpiece] at hi
        exact (hs.closing hi).mpr hreached
      · refine (hs.element hi hpiece).mpr ⟨hreached, hdeep i _ hi hpiece, ?_⟩
        have hsucc : elementCount (marks.take (i + 1)) = elementCount (marks.take i) + 1 := by
          rw [take_succ_of_getElem? hi, elementCount_append]
          simp [elementCount, hpiece]
        have hle : elementCount (marks.take (i + 1)) ≤ elementCount marks :=
          (List.take_sublist (i + 1) marks).countP_le
        rw [shownBefore_eq i fun j hj _ => hbefore j hj]
        omega

theorem shorten_eq_self (hall : ∀ i < marks.length, shown i = true) :
    shorten marks shown = marks := by
  have hkept : ∀ entry ∈ marks.zipIdx, (if shown entry.2 then [entry.1]
      else if reached marks shown entry.2 then [.cut] else []) = [entry.1] := by
    intro entry hentry
    have hlt : entry.2 < marks.length := List.snd_lt_of_mem_zipIdx hentry
    rw [if_pos (hall _ hlt)]
  rw [shorten, List.flatMap_congr hkept, ← List.map_eq_flatMap, List.zipIdx_map_fst]

/-- The first mark that is not shown is cut. -/
theorem cut_mem_shorten (hnot : ¬ ∀ i < marks.length, shown i = true) :
    .cut ∈ shorten marks shown := by
  by_contra hcut
  refine hnot fun i => ?_
  induction i using Nat.strongRecOn with
  | _ i ih =>
    intro hlt
    by_contra hi
    have hreached : reached marks shown i = true :=
      reached_of_forall fun j hj => ih j hj (Nat.lt_trans hj hlt)
    have hentry : (marks[i], i) ∈ marks.zipIdx :=
      List.mem_zipIdx_iff_getElem?.mpr (List.getElem?_eq_getElem hlt)
    exact hcut (List.mem_flatMap.mpr ⟨_, hentry, by simp [hi, hreached]⟩)

/-! ## The characters of marks -/

theorem textOf_cons (piece : Piece) (rest : List Piece) :
    textOf (piece :: rest) = piece.text ++ textAfter "" piece rest := by
  rw [textOf, ← textAfter_append, String.append_empty]

theorem textAfter_eq (left right : Piece) (rest : List Piece) :
    textAfter "" left (right :: rest) = left.between right ++ textOf (right :: rest) := by
  rw [textAfter_cons, String.empty_append, textOf_cons, ← String.append_assoc, ← textAfter_append,
    String.append_empty]

theorem text_infix (hpiece : piece ∈ marks) :
    piece.text.toList <:+: (textOf marks).toList := by
  induction marks with
  | nil => cases hpiece
  | cons first rest ih =>
    rw [textOf_cons, String.toList_append]
    rcases List.mem_cons.mp hpiece with rfl | hpiece
    · exact List.infix_append [] _ _
    · cases rest with
      | nil => cases hpiece
      | cons next rest =>
        rw [textAfter_eq, String.toList_append, ← List.append_assoc]
        exact (ih hpiece).trans (List.suffix_append _ _).isInfix

theorem filterMap_textOf {α : Type} (f : Char → Option α) (hf : f ' ' = none)
    (marks : List Piece) : (textOf marks).toList.filterMap f =
      marks.flatMap fun piece => piece.text.toList.filterMap f := by
  have hbetween : ∀ left right : Piece, (left.between right).toList.filterMap f = [] := by
    intro left right
    rw [between]
    split
    · exact List.filterMap_cons_none hf
    · rfl
  induction marks with
  | nil => rfl
  | cons first rest ih =>
    rw [textOf_cons, String.toList_append, List.filterMap_append, List.flatMap_cons, ← ih]
    cases rest with
    | nil => rfl
    | cons next rest =>
      rw [textAfter_eq, String.toList_append, List.filterMap_append, hbetween, List.nil_append]

def dyckStep? (c : Char) : Option DyckStep :=
  if c = '[' then some .U else if c = ']' then some .D else none

/-- Each opening bracket has a closing one behind it. -/
def Balanced (text : String) : Prop :=
  ∃ word : DyckWord, word.toList = text.toList.filterMap dyckStep?

def steps (marks : List Piece) : List DyckStep :=
  marks.flatMap fun piece => piece.text.toList.filterMap dyckStep?

theorem steps_append (left right : List Piece) :
    steps (left ++ right) = steps left ++ steps right :=
  List.flatMap_append

theorem filterMap_toString {α : Type} (f : Char → Option α)
    (hf : ∀ c : Char, c.isDigit = true → f c = none) (value : Nat) :
    (atom value).text.toList.filterMap f = [] := by
  have hdigits : ∀ c ∈ (toString value).toList, f c = none := by
    intro c hc
    rw [toList_toString] at hc
    exact hf c (Nat.isDigit_of_mem_toDigits (by decide) (by decide) hc)
  exact List.filterMap_eq_nil_iff.mpr hdigits

theorem steps_atom (value : Nat) : steps [atom value] = [] := by
  have hnone : ∀ c : Char, c.isDigit = true → dyckStep? c = none := fun c hc => by
    rw [dyckStep?, if_neg (ne_of_isDigit hc (by decide)), if_neg (ne_of_isDigit hc (by decide))]
  rw [steps, List.flatMap_singleton, filterMap_toString dyckStep? hnone]

/-- The brackets that appear for a noun are balanced. -/
theorem exists_dyckWord (a : Noun) : ∀ s : Scan, s.reached = true →
    (∃ word : DyckWord, word.toList = steps (s.run deepest most (whole a))) ∧
      ∃ word : DyckWord, word.toList = steps (s.run deepest most (wholeTail a)) := by
  have hcut : ∀ (a : Noun) (s : Scan), s.reached = true → s.fits deepest most = false →
      ∃ word : DyckWord, word.toList = steps (s.run deepest most (whole a)) := by
    intro a s hr hf
    rw [(Scan.run_whole_cut hr hf a).1]
    exact ⟨0, by decide⟩
  induction a with
  | atom value =>
    intro s hr
    have hone : ∃ word : DyckWord,
        word.toList = steps (s.run deepest most (whole (.atom value))) := by
      cases hf : s.fits deepest most with
      | false => exact hcut _ s hr hf
      | true =>
        have hrun : s.run deepest most (whole (.atom value)) = [.atom value] := by
          simp [whole, Scan.run, Scan.kept, Scan.shows, hr, hf]
        rw [hrun, steps_atom]
        exact ⟨0, rfl⟩
    exact ⟨hone, hone⟩
  | cell a b iha ihb =>
    have hrow : ∀ s : Scan, s.reached = true →
        ∃ word : DyckWord, word.toList = steps (s.run deepest most (wholeTail (.cell a b))) := by
      intro s hr
      obtain ⟨head, hhead⟩ := (iha s hr).1
      obtain ⟨tail, htail⟩ := (ihb _ (Scan.reached_after hr a)).2
      refine ⟨head + tail, ?_⟩
      rw [wholeTail_cell, Scan.run_append, steps_append, ← hhead, ← htail]
      rfl
    refine fun s hr => ⟨?_, hrow s hr⟩
    cases hf : s.fits deepest most with
    | false => exact hcut _ s hr hf
    | true =>
      obtain ⟨word, hword⟩ := hrow ⟨true :: s.brackets, s.elements + 1⟩
        (by simpa [Scan.reached] using hr)
      refine ⟨word.nest, ?_⟩
      rw [(Scan.run_whole_cell hr hf a b).1, ← List.singleton_append, steps_append, steps_append,
        ← hword]
      rfl

theorem cut_not_mem_whole (a : Noun) : .cut ∉ whole a ∧ .cut ∉ wholeTail a := by
  induction a with
  | atom value => simp [whole, wholeTail]
  | cell a b iha ihb =>
    have htail : .cut ∉ wholeTail (.cell a b) := by
      rw [wholeTail_cell, List.mem_append, not_or]
      exact ⟨iha.1, ihb.2⟩
    refine ⟨?_, htail⟩
    rw [whole_cell]
    simp [htail]

theorem dot_not_mem_textOf_whole (a : Noun) : '.' ∉ (textOf (whole a)).toList := by
  let dot? (c : Char) : Option Char := if c = '.' then some c else none
  have hpieces : ∀ piece ∈ whole a, piece.text.toList.filterMap dot? = [] := by
    intro piece hpiece
    cases piece with
    | opening | closing => rfl
    | atom value =>
      refine filterMap_toString dot? (fun c hc => ?_) value
      exact if_neg (ne_of_isDigit hc (by decide))
    | cut => exact absurd hpiece (cut_not_mem_whole a).1
  have htext : (textOf (whole a)).toList.filterMap dot? = [] := by
    rw [filterMap_textOf dot? rfl]
    exact List.flatMap_eq_nil_iff.mpr hpieces
  intro hdot
  cases (List.filterMap_eq_nil_iff.mp htext '.' hdot)

end Piece

variable {g : Graph} {n : NodeId} {a : Noun}

open Piece

/-- The short text is the whole text with cuts. An element is shown if all brackets around it are,
at most 8 of them, and if fewer than 200 elements are shown before it, and the topmost elements that
are not are replaced by three dots. Just when no element is too deep and there are not too many, the
short text is whole, and otherwise it has dots. Its brackets are balanced. -/
theorem writeShort_cuts (wf : g.WellFormed) (hd : g.Denotes n a)
    (hsize : elementCount (whole a) < UInt64.size) :
    write g n = textOf (whole a) ∧
    (∃ shown, Shows 8 200 (whole a) shown) ∧
    (∀ shown, Shows 8 200 (whole a) shown →
      writeShort g n = textOf (shorten (whole a) shown)) ∧
    (writeShort g n = write g n ↔ Fits 8 200 (whole a)) ∧
    ("...".toList <:+: (writeShort g n).toList ↔ ¬ Fits 8 200 (whole a)) ∧
    Balanced (writeShort g n) := by
  have hwrite := write_eq wf hd hsize
  have hrun : writeShort g n = textOf (Scan.start.run 8 200 (whole a)) := by
    rw [writeShort, Printer.marks_eq_run wf hd]
  have hshort : ∀ shown, Shows 8 200 (whole a) shown →
      writeShort g n = textOf (shorten (whole a) shown) := fun shown hs => by
    rw [hrun, Scan.run_eq_shorten hs]
  obtain ⟨shown, hs⟩ := Scan.exists_shows 8 200 (whole a)
  have hfits : Fits 8 200 (whole a) → writeShort g n = write g n := fun hf => by
    rw [hshort shown hs, shorten_eq_self (hs.forall_iff.mpr hf), hwrite]
  have hcut : ¬ Fits 8 200 (whole a) → "...".toList <:+: (writeShort g n).toList := fun hf => by
    rw [hshort shown hs]
    exact text_infix (cut_mem_shorten (mt hs.forall_iff.mp hf))
  have hdots : "...".toList <:+: (write g n).toList → False := fun hd => by
    rw [hwrite] at hd
    exact dot_not_mem_textOf_whole a (hd.subset (by decide))
  refine ⟨hwrite, ⟨shown, hs⟩, hshort, ⟨fun heq => ?_, hfits⟩, ⟨fun hdots' hf => ?_, hcut⟩, ?_⟩
  · by_contra hf
    exact hdots (heq ▸ hcut hf)
  · exact hdots (hfits hf ▸ hdots')
  · obtain ⟨word, hword⟩ := (exists_dyckWord a Scan.start rfl).1
    refine ⟨word, ?_⟩
    rw [hword, hrun, filterMap_textOf dyckStep? (by decide)]
    rfl

/-- In ten brackets around each other, the element in the ninth is cut. -/
theorem writeShort_cuts_deep :
    let a : Noun := (List.range 10).foldl (fun a value => .cell a (.atom value)) (.atom 10)
    let g := ((Graph.empty ⟨0⟩).put a).2
    let n := ((Graph.empty ⟨0⟩).put a).1
    elementCount (whole a) < UInt64.size ∧ "...".toList <:+: (writeShort g n).toList := by
  intro a g n
  have hsize : elementCount (whole a) < UInt64.size := by decide
  obtain ⟨hgrow, hd⟩ := Graph.grows_put (Graph.wellFormed_empty ⟨0⟩) a
  obtain ⟨-, -, -, -, hdots, -⟩ := writeShort_cuts hgrow.wellFormed hd hsize
  refine ⟨hsize, hdots.mpr fun hf => ?_⟩
  have hdeep : ¬ (around (whole a) 9).length ≤ 8 := by decide
  exact hdeep (hf.1 9 .opening (by decide) (by decide))

end NockDispatch.Text
