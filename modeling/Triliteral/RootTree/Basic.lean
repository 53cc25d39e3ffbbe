import Triliteral.Derivation
import Triliteral.Root

/-!
The tree of roots: a height-balanced search tree ordered by the letters of the roots. Every
node keeps the height of its subtree; an insertion restores the balance on its way back up
by rotations, which keep the order of the nodes.
-/

namespace Triliteral

/-- A stored root with the words recorded on it, oldest first. -/
structure RootEntry where
  root : Root
  derivations : List Derivation
  deriving DecidableEq

/-- A binary tree of entries. Each node keeps a height, which is meant to be that of its
subtree. -/
inductive RootTree where
  | leaf
  | node (left : RootTree) (entry : RootEntry) (height : Nat) (right : RootTree)
  deriving DecidableEq

namespace RootTree

structure Node where
  entry : RootEntry
  height : Nat
  deriving DecidableEq

def nodes : RootTree → List Node
  | leaf => []
  | node left entry height right => left.nodes ++ ⟨entry, height⟩ :: right.nodes

def entries (tree : RootTree) : List RootEntry :=
  tree.nodes.map Node.entry

def roots (tree : RootTree) : List Root :=
  tree.entries.map RootEntry.root

def size : RootTree → Nat
  | leaf => 0
  | node left _ _ right => left.size + right.size + 1

def height : RootTree → Nat
  | leaf => 0
  | node _ _ height _ => height

def trueHeight : RootTree → Nat
  | leaf => 0
  | node left _ _ right => 1 + max left.trueHeight right.trueHeight

/-- Holds when at every node the heights of the two sides differ by at most one and the
height kept is the true one. -/
def Balanced : RootTree → Prop
  | leaf => True
  | node left _ height right =>
    left.Balanced ∧ right.Balanced ∧
      left.trueHeight ≤ right.trueHeight + 1 ∧ right.trueHeight ≤ left.trueHeight + 1 ∧
      height = 1 + max left.trueHeight right.trueHeight

/-- The true height of a balanced tree, found in one pass from the leaves up. -/
def checkedHeight? : RootTree → Option Nat
  | leaf => some 0
  | node left _ height right => do
    let l ← left.checkedHeight?
    let r ← right.checkedHeight?
    if l ≤ r + 1 ∧ r ≤ l + 1 ∧ height = 1 + max l r then some height else none

def isBalanced (tree : RootTree) : Bool :=
  tree.checkedHeight?.isSome

def find? : RootTree → Root → Option Node
  | leaf, _ => none
  | node left entry height right, root =>
    if root < entry.root then left.find? root
    else if entry.root < root then right.find? root
    else some ⟨entry, height⟩

def contains (tree : RootTree) (root : Root) : Bool :=
  (tree.find? root).isSome

/-- The node of the root with a text, found by descent. Any text may be looked for, also one
that no root has. -/
def findText? : RootTree → String → Option Node
  | leaf, _ => none
  | node left entry height right, text =>
    if text < entry.root.text then left.findText? text
    else if entry.root.text < text then right.findText? text
    else some ⟨entry, height⟩

def containsText (tree : RootTree) (text : String) : Bool :=
  (tree.findText? text).isSome

/-- How much higher the left side of the top is than the right side. -/
def balance : RootTree → Int
  | leaf => 0
  | node left _ _ right => (left.height : Int) - (right.height : Int)

def join (left : RootTree) (entry : RootEntry) (right : RootTree) : RootTree :=
  node left entry (1 + max left.height right.height) right

/-- Brings the left child to the top. A tree without one is returned as it is. -/
def rotateRight : RootTree → RootTree
  | node (node a lower _ b) upper _ c => join a lower (join b upper c)
  | tree => tree

def rotateLeft : RootTree → RootTree
  | node a upper _ (node b lower _ c) => join (join a upper b) lower c
  | tree => tree

/-- Restores the balance of the top after `root` was inserted below it. The side on which
`root` lies of the higher child tells a single rotation from a double one. -/
def rebalance (root : Root) : RootTree → RootTree
  | leaf => leaf
  | tree@(node left entry height right) =>
    if 1 < tree.balance then
      match left with
      | leaf => tree
      | node _ child _ _ =>
        if root < child.root then rotateRight tree
        else if child.root < root then rotateRight (node (rotateLeft left) entry height right)
        else tree
    else if tree.balance < -1 then
      match right with
      | leaf => tree
      | node _ child _ _ =>
        if child.root < root then rotateLeft tree
        else if root < child.root then rotateLeft (node left entry height (rotateRight right))
        else tree
    else tree

/-- Puts a root that is not in the tree below the leaf where it belongs, and rebalances
every node on the way back up. -/
def grow (root : Root) : RootTree → RootTree
  | leaf => node leaf ⟨root, []⟩ 1 leaf
  | node left entry height right =>
    if root < entry.root then rebalance root (join (grow root left) entry right)
    else if entry.root < root then rebalance root (join left entry (grow root right))
    else node left entry height right

inductive Insertion where
  | added
  | alreadyPresent
  deriving DecidableEq, Repr

def insert (tree : RootTree) (root : Root) : Insertion × RootTree :=
  if tree.contains root then (.alreadyPresent, tree) else (.added, grow root tree)

/-- Records a derivation on a root. Nothing changes if the root is absent or has the word. -/
def record (root : Root) (derivation : Derivation) : RootTree → RootTree
  | leaf => leaf
  | node left entry height right =>
    if root < entry.root then node (record root derivation left) entry height right
    else if entry.root < root then node left entry height (record root derivation right)
    else
      node left { entry with derivations := derivation.record entry.derivations } height right

end RootTree

end Triliteral
