import Triliteral.RootTree.Basic

/-!
The tree of roots in an arena. Its nodes are cells that refer to their children by places. An
insertion adds one cell and relinks others where they are; no cell is ever removed.
-/

namespace Triliteral

inductive Side where
  | left
  | right
  deriving DecidableEq, Repr

def Side.other : Side → Side
  | .left => .right
  | .right => .left

def Root.side? (root other : Root) : Option Side :=
  if root < other then some .left
  else if other < root then some .right
  else none

/-- A node that stands at some place of an arena, with the places of its children. -/
structure Cell where
  entry : RootEntry
  left : Option Nat
  right : Option Nat
  height : Nat
  deriving DecidableEq

namespace Cell

def ofRoot (root : Root) : Cell where
  entry := ⟨root, []⟩
  left := none
  right := none
  height := 1

def node (cell : Cell) : RootTree.Node where
  entry := cell.entry
  height := cell.height

def child (cell : Cell) : Side → Option Nat
  | .left => cell.left
  | .right => cell.right

def withChild (child : Option Nat) (cell : Cell) : Side → Cell
  | .left => { cell with left := child }
  | .right => { cell with right := child }

def record (derivation : Derivation) (cell : Cell) : Cell :=
  { cell with
    entry := { cell.entry with derivations := derivation.record cell.entry.derivations } }

end Cell

structure Arena where
  cells : List Cell
  top : Option Nat
  deriving DecidableEq

namespace Arena

def empty : Arena where
  cells := []
  top := none

/-! ### Links and heights -/

def childAt (cells : List Cell) (place : Nat) (side : Side) : Option Nat :=
  cells[place]?.bind fun cell => cell.child side

def setChild (place : Nat) (side : Side) (child : Option Nat) (cells : List Cell) : List Cell :=
  cells.modify place fun cell => cell.withChild child side

def heightAt (cells : List Cell) (place : Option Nat) : Nat :=
  ((place.bind fun place => cells[place]?).map Cell.height).getD 0

def updateHeight (place : Nat) (cells : List Cell) : List Cell :=
  cells.modify place fun cell =>
    { cell with height := 1 + max (heightAt cells cell.left) (heightAt cells cell.right) }

/-- How much higher the child on a side is than the other child. -/
def excessAt (cells : List Cell) (place : Nat) (side : Side) : Int :=
  (heightAt cells (childAt cells place side) : Int) -
    (heightAt cells (childAt cells place side.other) : Int)

def sideAt? (cells : List Cell) (place other : Nat) : Option Side := do
  let cell ← cells[place]?
  let other ← cells[other]?
  cell.entry.root.side? other.entry.root

/-! ### Rotations -/

/-- Brings the child on a side to the top, and tells the place of the new top. A cell without this
child stays the top. -/
def rotate (side : Side) (place : Nat) (cells : List Cell) : Nat × List Cell :=
  match childAt cells place side with
  | none => (place, cells)
  | some child =>
    let inner := childAt cells child side.other
    let cells := setChild child side.other (some place) cells
    let cells := setChild place side inner cells
    (child, updateHeight child (updateHeight place cells))

/-- Takes the height off a side. The side of the child on which the new root lies tells a single
rotation from a double one. -/
def relieve (new : Nat) (side : Side) (place : Nat) (cells : List Cell) : Nat × List Cell :=
  match childAt cells place side with
  | none => (place, cells)
  | some child =>
    match sideAt? cells new child with
    | none => (place, cells)
    | some turn =>
      if turn = side then rotate side place cells
      else
        let (child, cells) := rotate turn child cells
        rotate side place (setChild place side (some child) cells)

def rebalance (new place : Nat) (cells : List Cell) : Nat × List Cell :=
  if 1 < excessAt cells place .left then relieve new .left place cells
  else if 1 < excessAt cells place .right then relieve new .right place cells
  else (place, cells)

/-! ### Operations -/

/-- Links a new cell below the top at a place, if any, and tells the place of the new top. The first
argument bounds the depth of the descent. -/
def insertAt (new : Nat) : Nat → Option Nat → List Cell → Nat × List Cell
  | _, none, cells => (new, cells)
  | 0, some place, cells => (place, cells)
  | depth + 1, some place, cells =>
    match sideAt? cells new place with
    | none => (place, cells)
    | some side =>
      let (child, cells) := insertAt new depth (childAt cells place side) cells
      rebalance new place (updateHeight place (setChild place side (some child) cells))

def findPlace? (cells : List Cell) (text : String) : Nat → Option Nat → Option Nat
  | depth + 1, some place =>
    match cells[place]? with
    | none => none
    | some cell =>
      if text < cell.entry.root.text then findPlace? cells text depth cell.left
      else if cell.entry.root.text < text then findPlace? cells text depth cell.right
      else some place
  | _, _ => none

/-- No path is longer than the number of cells. -/
def place? (arena : Arena) (text : String) : Option Nat :=
  findPlace? arena.cells text arena.cells.length arena.top

def find? (arena : Arena) (text : String) : Option Cell :=
  (arena.place? text).bind fun place => arena.cells[place]?

def insert (arena : Arena) (root : Root) : RootTree.Insertion × Arena :=
  match arena.place? root.text with
  | some _ => (.alreadyPresent, arena)
  | none =>
    let new := arena.cells.length
    let (top, cells) := insertAt new new arena.top (arena.cells ++ [.ofRoot root])
    (.added, { cells, top := some top })

def recordAt (derivation : Derivation) : Option Nat → List Cell → List Cell
  | none, cells => cells
  | some place, cells => cells.modify place (Cell.record derivation)

def record (arena : Arena) (text : String) (derivation : Derivation) : Arena :=
  { arena with cells := recordAt derivation (arena.place? text) arena.cells }

end Arena

end Triliteral
