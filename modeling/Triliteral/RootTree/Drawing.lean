import Triliteral.RootTree.Arena
import Triliteral.Text.Decimal

/-!
Drawings of a tree of roots: one line for each node, a child below its parent and joined to
it by box-drawing characters, the left child first. In an arena the nodes are found by their places.
-/

namespace Triliteral

namespace RootTree

/-- Joins the lines of a child to its parent: the first line by one connector, the lines
below it by another. -/
def hang (first below : String) : List String → List String
  | [] => []
  | line :: lines => (first ++ line) :: lines.map (below ++ ·)

def hangUpper (lines : List String) : List String :=
  hang "├── " "│   " lines

def hangLast (lines : List String) : List String :=
  hang "└── " "    " lines

def label (entry : RootEntry) (height : Nat) : String :=
  entry.root.text ++ " (h=" ++ Text.Decimal.text height ++ ")"

/-- The lines of a tree. A lone child is drawn as a last one, whichever side it is on. -/
def lines : RootTree → List String
  | leaf => []
  | node left entry height right =>
    label entry height ::
      match right with
      | leaf => hangLast left.lines
      | node .. => hangUpper left.lines ++ hangLast right.lines

def draw : RootTree → String
  | leaf => "Empty tree\n"
  | tree@(node ..) => String.join (tree.lines.map (· ++ "\n"))

end RootTree

namespace Arena

open RootTree

def linesAt (cells : List Cell) : Nat → Option Nat → List String
  | depth + 1, some place =>
    match cells[place]? with
    | none => [""]
    | some cell =>
      label cell.entry cell.height ::
        match cell.right with
        | none => hangLast (linesAt cells depth cell.left)
        | some right =>
          hangUpper (linesAt cells depth cell.left) ++ hangLast (linesAt cells depth (some right))
  | _, _ => []

/-- The drawing of what is in an arena. No path is longer than the number of cells. -/
def draw (arena : Arena) : String :=
  match arena.top with
  | none => "Empty tree\n"
  | some top => String.join ((linesAt arena.cells arena.cells.length (some top)).map (· ++ "\n"))

end Arena

end Triliteral
