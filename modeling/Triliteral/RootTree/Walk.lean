import Triliteral.RootTree.Arena

/-!
A walk visits the nodes of a tree in ascending order, one at each step, with the nodes
whose left side it is in kept on a stack. In an arena the stack has the places of these nodes.
-/

namespace Triliteral

namespace RootTree

/-- A state of a walk: the tree still to be entered, and the nodes waiting for their turn,
each with its right side. -/
structure Walk where
  current : RootTree
  waiting : List (Node × RootTree)

namespace Walk

def start (tree : RootTree) : Walk := ⟨tree, []⟩

def descend : RootTree → List (Node × RootTree) → List (Node × RootTree)
  | leaf, waiting => waiting
  | node left entry height right, waiting =>
    descend left ((⟨entry, height⟩, right) :: waiting)

def next? (walk : Walk) : Option (Node × Walk) :=
  match descend walk.current walk.waiting with
  | [] => none
  | (top, right) :: waiting => some (top, ⟨right, waiting⟩)

def take (walk : Walk) : Nat → List Node
  | 0 => []
  | steps + 1 =>
    match walk.next? with
    | none => []
    | some (visited, rest) => visited :: rest.take steps

end Walk

end RootTree

namespace Arena

def inOrder (cells : List Cell) : Nat → Option Nat → List Nat
  | depth + 1, some place =>
    inOrder cells depth (childAt cells place .left) ++
      place :: inOrder cells depth (childAt cells place .right)
  | _, _ => []

/-- A state of a walk: the place still to be entered, and the places waiting for their turn, the
top of the stack first. -/
structure Walk where
  current : Option Nat
  stack : List Nat
  deriving DecidableEq

namespace Walk

def start (arena : Arena) : Walk := ⟨arena.top, []⟩

/-- Stacks the place to be entered and goes on to its left child. Without one nothing happens. -/
def enter (cells : List Cell) (walk : Walk) : Walk :=
  match walk.current with
  | none => walk
  | some place => ⟨childAt cells place .left, place :: walk.stack⟩

def descend (cells : List Cell) : Nat → Walk → Walk
  | 0, walk => walk
  | steps + 1, walk => descend cells steps (walk.enter cells)

/-- Takes the top off the stack and tells its cell, on the right side of which the walk goes on. -/
def leave (cells : List Cell) (walk : Walk) : Option Cell × Walk :=
  match walk.stack with
  | [] => (none, walk)
  | place :: stack =>
    match cells[place]? with
    | none => (none, { walk with stack })
    | some cell => (some cell, ⟨cell.right, stack⟩)

/-- The next cell, if there is one. No edge is longer than the number of cells. -/
def next (cells : List Cell) (walk : Walk) : Option Cell × Walk :=
  (walk.descend cells cells.length).leave cells

def after (cells : List Cell) : Nat → Walk → Walk
  | 0, walk => walk
  | calls + 1, walk => after cells calls (walk.next cells).2

/-- The places that a walk has still to visit, as its state tells them: those below the place to be
entered, and then each place on the stack with those on its right side. -/
def remaining (cells : List Cell) (walk : Walk) : List Nat :=
  inOrder cells cells.length walk.current ++
    walk.stack.flatMap fun place =>
      place :: inOrder cells cells.length (childAt cells place .right)

end Walk

end Arena

end Triliteral
