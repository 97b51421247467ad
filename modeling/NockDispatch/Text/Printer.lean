import NockDispatch.Graph.Basic

/-!
# Writing nouns

A cell is written as a bracket around its elements: the head of the cell, the head of its
tail when that is a cell too, and so on along the tails, and at last the atom they end in.
The elements of one noun are thus the noun itself and all the elements of its brackets.

How much is written is limited by a number of elements and by how deep brackets are nested.
An element beyond either limit appears as three dots, and does not count as written.
-/

namespace NockDispatch.Text

inductive Piece where
  | opening
  | closing
  | atom (value : Nat)
  /-- Something that was left out. -/
  | cut
deriving DecidableEq, Repr

namespace Piece

def text : Piece → String
  | opening => "["
  | closing => "]"
  | atom value => toString value
  | cut => "..."

/-- Neighbours are set apart by a space, but a bracket holds its elements tightly. -/
def apart (left right : Piece) : Bool :=
  left != opening && right != closing

def textAfter (written : String) (left : Piece) : List Piece → String
  | [] => written
  | right :: rest =>
    let written := if left.apart right then written ++ " " else written
    textAfter (written ++ right.text) right rest

def textOf : List Piece → String
  | [] => ""
  | first :: rest => textAfter first.text first rest

end Piece

namespace Printer

/-- The marks so far, the last one first, and how many more elements may be written. -/
structure Page where
  marks : List Piece
  budget : Nat

def Page.mark (page : Page) (piece : Piece) : Page :=
  { page with marks := piece :: page.marks }

/-- The heads along the tails of a node and the atom at their end. Children come before their
cells, so this ends. -/
def elements (g : Graph) (id : NodeId) : List NodeId :=
  match g.cell? id with
  | some (head, tail) =>
    if tail.index < id.index then head :: elements g tail else [head, tail]
  | none => [id]
termination_by id.index

/-- Write an element, with brackets nested at most so many levels deep. -/
def element (g : Graph) (levels : Nat) (page : Page) (id : NodeId) : Page :=
  match levels with
  | 0 => page.mark .cut
  | levels + 1 =>
    match page.budget with
    | 0 => page.mark .cut
    | budget + 1 =>
      let page : Page := { page with budget := budget }
      match g.node? id with
      | some (.atom value) => page.mark (.atom value)
      | some (.cell _ _) =>
        let page := (elements g id).foldl (fun page id => element g levels page id)
          (page.mark .opening)
        page.mark .closing
      | none => page

def marks (g : Graph) (id : NodeId) (levels budget : Nat) : List Piece :=
  (element g levels ⟨[], budget⟩ id).marks.reverse

end Printer

/-- The text of a noun. It is whole for every noun with fewer elements than there are words. -/
def write (g : Graph) (id : NodeId) : String :=
  Piece.textOf (Printer.marks g id UInt64.size (UInt64.size - 1))

/-- The text of a noun, cut short for a line of a log: at most 200 elements are written, inside at
most 8 brackets. -/
def writeShort (g : Graph) (id : NodeId) : String :=
  Piece.textOf (Printer.marks g id 9 200)

end NockDispatch.Text
