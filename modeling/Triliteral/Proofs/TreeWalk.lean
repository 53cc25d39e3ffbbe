import Triliteral.Proofs.TreeEntries
import Triliteral.RootTree.Walk

/-!
A walk visits exactly the nodes of its tree in order. What a walk has still to visit can be
read off its state, and a step takes the first node of that.
-/

namespace Triliteral.RootTree.Walk

/-- The nodes still to come while these wait: each of them and then its right side. -/
def waitingNodes (waiting : List (Node × RootTree)) : List Node :=
  waiting.flatMap fun (top, right) => top :: right.nodes

def remaining (walk : Walk) : List Node :=
  walk.current.nodes ++ waitingNodes walk.waiting

@[simp] theorem remaining_start (tree : RootTree) : (start tree).remaining = tree.nodes := by
  simp [start, remaining, waitingNodes]

/-- Going down the left edge stacks what was to be entered without losing a node. -/
theorem waitingNodes_descend (tree : RootTree) (waiting : List (Node × RootTree)) :
    waitingNodes (descend tree waiting) = tree.nodes ++ waitingNodes waiting := by
  induction tree generalizing waiting with
  | leaf => rfl
  | node left entry height right ihLeft ihRight =>
      rw [descend, ihLeft]
      simp [waitingNodes]

theorem remaining_eq (walk : Walk) :
    walk.remaining = waitingNodes (descend walk.current walk.waiting) :=
  (waitingNodes_descend walk.current walk.waiting).symm

/-- A step takes the first of the remaining nodes, and there is none only at the end. -/
theorem next?_spec (walk : Walk) :
    match walk.next? with
    | none => walk.remaining = []
    | some (visited, rest) => walk.remaining = visited :: rest.remaining := by
  rw [remaining_eq, next?]
  cases descend walk.current walk.waiting with
  | nil => rfl
  | cons head waiting => rfl

theorem take_eq (walk : Walk) (steps : Nat) :
    walk.take steps = walk.remaining.take steps := by
  induction steps generalizing walk with
  | zero => rfl
  | succ steps ih =>
      have hspec := walk.next?_spec
      rw [take]
      cases hnext : walk.next? with
      | none =>
          rw [hnext] at hspec
          simp [hspec]
      | some step =>
          obtain ⟨visited, rest⟩ := step
          rw [hnext] at hspec
          simp [hspec, ih]

end Triliteral.RootTree.Walk
