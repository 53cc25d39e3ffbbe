import Triliteral.Proofs.ArenaRuns

/-!
Walks through arenas. A walk by places and a stack visits the cells of a tree from left to right,
each of them once, whatever the tree looks like: what it has still to visit can be read off its
state, entering a place does not change that, and leaving one takes the first of it.
-/

namespace Triliteral.Arena

open RootTree

variable {cells : List Cell} {top : Option Nat} {tree : RootTree} {places rest : List Nat}

/-! ### From left to right -/

theorem Holds.inOrder_eq (h : Holds cells top tree places) {depth : Nat}
    (hdepth : tree.trueHeight ≤ depth) : inOrder cells depth top = places := by
  induction h generalizing depth with
  | leaf => cases depth <;> rfl
  | node hcell hleft hright ihLeft ihRight =>
      rw [trueHeight] at hdepth
      obtain ⟨depth, rfl⟩ : ∃ rest, depth = rest + 1 := ⟨depth - 1, by omega⟩
      rw [inOrder, childAt_eq hcell, childAt_eq hcell]
      exact congrArg₂ (fun before after => before ++ _ :: after) (ihLeft (by omega))
        (ihRight (by omega))

theorem Holds.trueHeight_le_length (h : Holds cells top tree places) :
    tree.trueHeight ≤ places.length :=
  h.length_eq ▸ trueHeight_le_size tree

theorem Holds.map_node_eq (h : Holds cells top tree places) :
    places.map (fun place => cells[place]?.map Cell.node) = tree.nodes.map some := by
  induction h with
  | leaf => rfl
  | node hcell hleft hright ihLeft ihRight =>
      rw [List.map_append, List.map_cons, ihLeft, ihRight, hcell, nodes_node, List.map_append]
      rfl

theorem Holds.node_getElem? (h : Holds cells top tree places) (i : Nat) :
    (places[i]?.bind fun place => cells[place]?).map Cell.node = tree.nodes[i]? := by
  have hnode := congrArg (fun found => found[i]?.bind id) h.map_node_eq
  simpa [Option.map_bind, Option.bind_map, Function.comp_def] using hnode

theorem Holds.length_le_of_nodup (h : Holds cells top tree places) (hnodup : places.Nodup) :
    places.length ≤ cells.length := by
  have hsubset : places ⊆ List.range cells.length := by
    intro place hplace
    have hcell := List.mem_map_of_mem (f := fun place => cells[place]?.map Cell.node) hplace
    rw [h.map_node_eq, List.mem_map] at hcell
    obtain ⟨node, -, hnode⟩ := hcell
    obtain ⟨cell, hcell, -⟩ := Option.map_eq_some_iff.mp hnode.symm
    exact List.mem_range.mpr (List.getElem?_eq_some_iff.mp hcell).1
  simpa using (hnodup.subperm hsubset).length_le

namespace Walk

variable {walk : Walk} {stack : List Nat}

/-- Holds if a stack has places of cells, to the right of each of which there is a tree. These
places and those in the trees are listed in the order in which their turn comes. -/
inductive Stacked (cells : List Cell) : List Nat → List Nat → Prop
  | nil : Stacked cells [] []
  | cons {place : Nat} {cell : Cell} {right : RootTree} {stack after rest : List Nat}
      (hcell : cells[place]? = some cell) (hright : Holds cells cell.right right after)
      (hrest : Stacked cells stack rest) :
      Stacked cells (place :: stack) (place :: (after ++ rest))

/-- Holds if a walk is about to enter a tree, with such a stack; the places that it has still to
visit are listed. -/
inductive Awaits (cells : List Cell) : Walk → List Nat → Prop
  | mk {current : Option Nat} {tree : RootTree} {stack before rest : List Nat}
      (hcurrent : Holds cells current tree before) (hstack : Stacked cells stack rest) :
      Awaits cells ⟨current, stack⟩ (before ++ rest)

/-! ### One round and one call -/

theorem enter_some (cells : List Cell) (place : Nat) (stack : List Nat) :
    enter cells ⟨some place, stack⟩ = ⟨childAt cells place .left, place :: stack⟩ :=
  rfl

theorem Awaits.enter (h : Awaits cells walk rest) : Awaits cells (walk.enter cells) rest := by
  obtain ⟨hcurrent, hstack⟩ := h
  cases hcurrent with
  | leaf => exact .mk .leaf hstack
  | node hcell hleft hright =>
      rw [enter_some, childAt_eq hcell, List.append_assoc]
      exact .mk hleft (.cons hcell hright hstack)

theorem Awaits.descend (h : Awaits cells walk rest) (steps : Nat) :
    Awaits cells (walk.descend cells steps) rest := by
  induction steps generalizing walk with
  | zero => exact h
  | succ steps ih => exact ih h.enter

theorem current_descend_of_none (h : walk.current = none) (steps : Nat) :
    (walk.descend cells steps).current = none := by
  induction steps with
  | zero => exact h
  | succ steps ih =>
      rw [Walk.descend, Walk.enter, h]
      exact ih

theorem current_descend_eq_none (h : Holds cells top tree places) (stack : List Nat) {steps : Nat}
    (hsteps : tree.trueHeight ≤ steps) :
    (descend cells steps ⟨top, stack⟩).current = none := by
  induction h generalizing stack steps with
  | leaf => exact current_descend_of_none rfl steps
  | node hcell hleft hright ihLeft ihRight =>
      rw [trueHeight] at hsteps
      obtain ⟨steps, rfl⟩ : ∃ rest, steps = rest + 1 := ⟨steps - 1, by omega⟩
      rw [Walk.descend, enter_some, childAt_eq hcell]
      exact ihLeft _ (by omega)

theorem Awaits.leave (h : Awaits cells walk rest) (hcurrent : walk.current = none) :
    (walk.leave cells).1 = rest.head?.bind (fun place => cells[place]?) ∧
      Awaits cells (walk.leave cells).2 rest.tail := by
  obtain ⟨hholds, hstack⟩ := h
  obtain rfl := hcurrent
  cases hholds
  cases hstack with
  | nil => exact ⟨rfl, .mk .leaf .nil⟩
  | cons hcell hright hrest =>
      rw [Walk.leave]
      dsimp only
      rw [hcell]
      exact ⟨hcell.symm, .mk hright hrest⟩

theorem Awaits.current_descend (h : Awaits cells walk rest) (hlength : rest.length ≤ cells.length) :
    (walk.descend cells cells.length).current = none := by
  obtain ⟨hcurrent, -⟩ := h
  refine current_descend_eq_none hcurrent _ (hcurrent.trueHeight_le_length.trans ?_)
  rw [List.length_append] at hlength
  omega

theorem Awaits.next (h : Awaits cells walk rest) (hlength : rest.length ≤ cells.length) :
    (walk.next cells).1 = rest.head?.bind (fun place => cells[place]?) ∧
      Awaits cells (walk.next cells).2 rest.tail :=
  (h.descend cells.length).leave (h.current_descend hlength)

/-! ### Runs of calls -/

theorem Awaits.after (h : Awaits cells walk rest) (hlength : rest.length ≤ cells.length)
    (calls : Nat) : Awaits cells (walk.after cells calls) (rest.drop calls) := by
  induction calls generalizing walk rest with
  | zero => exact h
  | succ calls ih =>
      have hnext := ih (h.next hlength).2 (by rw [List.length_tail]; omega)
      rwa [List.drop_tail] at hnext

theorem Stacked.flatMap_eq (h : Stacked cells stack rest) {depth : Nat}
    (hdepth : rest.length ≤ depth) :
    (stack.flatMap fun place => place :: inOrder cells depth (childAt cells place .right)) =
      rest := by
  induction h with
  | nil => rfl
  | cons hcell hright hrest ih =>
      rw [List.length_cons, List.length_append] at hdepth
      have hheight := hright.trueHeight_le_length
      rw [List.flatMap_cons, ih (by omega), childAt_eq hcell, List.cons_append]
      exact congrArg (fun after => _ :: (after ++ _)) (hright.inOrder_eq (by omega))

theorem Awaits.remaining_eq (h : Awaits cells walk rest) (hlength : rest.length ≤ cells.length) :
    walk.remaining cells = rest := by
  obtain ⟨hcurrent, hstack⟩ := h
  rw [List.length_append] at hlength
  have hheight := hcurrent.trueHeight_le_length
  rw [remaining, hcurrent.inOrder_eq (by omega), hstack.flatMap_eq (by omega)]

end Walk

variable {arena : Arena}

/-- A walk through an arena is the traversal from left to right of the tree that is in it, balanced
or not. The places of the tree come in order, each once, with the nodes of the tree at them. Every
call comes to the end of the edge that it goes down, and gives the cell at the next place; when no
place is left, this and all later calls give none. At any time, also half-way down an edge, the
places still to be visited are those below the current one from left to right and then, from the top
of the stack down, each place there followed by those on its right side. A walk through the tree
itself visits the same nodes. -/
theorem walk_visits_inOrder (h : Holds arena.cells arena.top tree places) (hnodup : places.Nodup) :
    inOrder arena.cells arena.cells.length arena.top = places ∧
    places.map (fun place => arena.cells[place]?.map Cell.node) = tree.nodes.map some ∧
    (∀ calls,
      let walk := (Walk.start arena).after arena.cells calls
      (walk.descend arena.cells arena.cells.length).current = none ∧
      (walk.next arena.cells).1 = places[calls]?.bind (fun place => arena.cells[place]?) ∧
      (walk.next arena.cells).1.map Cell.node = tree.nodes[calls]? ∧
      ∀ steps, (walk.descend arena.cells steps).remaining arena.cells = places.drop calls) ∧
    ∀ steps, (RootTree.Walk.start tree).take steps = tree.nodes.take steps := by
  have hlength : places.length ≤ arena.cells.length := h.length_le_of_nodup hnodup
  have hnodes := h.map_node_eq
  have hstart : Walk.Awaits arena.cells (Walk.start arena) places := by
    simpa [Walk.start] using Walk.Awaits.mk h .nil
  refine ⟨h.inOrder_eq (h.trueHeight_le_length.trans hlength), hnodes, fun calls => ?_,
    fun steps => ?_⟩
  · intro walk
    have hwalk : walk.Awaits arena.cells (places.drop calls) := hstart.after hlength calls
    have hrest : (places.drop calls).length ≤ arena.cells.length := by
      rw [List.length_drop]
      omega
    have hcell := (hwalk.next hrest).1
    rw [List.head?_drop] at hcell
    refine ⟨hwalk.current_descend hrest, hcell, ?_,
      fun steps => (hwalk.descend steps).remaining_eq hrest⟩
    rw [hcell, h.node_getElem?]
  · rw [RootTree.Walk.take_eq, RootTree.Walk.remaining_start]

/-- Four cells in no order of any kind, of a tree without a fork that keeps wrong heights. Two of
them have the same root. -/
def crooked : Arena where
  cells := [⟨⟨⟨'ك', 'ت', 'ب'⟩, []⟩, none, some 3, 1⟩, ⟨⟨⟨'د', 'ر', 'س'⟩, []⟩, none, none, 5⟩,
    ⟨⟨⟨'ب', 'ر', 'د'⟩, []⟩, some 0, none, 0⟩, ⟨⟨⟨'ك', 'ت', 'ب'⟩, []⟩, some 1, none, 2⟩]
  top := some 2

/-- The second call has just left a cell without a right side. The next one has no edge to go down,
and after the fourth nothing is left. -/
theorem walk_visits_inOrder_crooked :
    ∃ tree, Holds crooked.cells crooked.top tree [0, 1, 3, 2] ∧ [0, 1, 3, 2].Nodup ∧
      tree.isBalanced = false ∧ ¬ tree.Ordered ∧
      (Walk.start crooked).after crooked.cells 2 = ⟨none, [3, 2]⟩ ∧
      Walk.remaining crooked.cells ⟨none, [3, 2]⟩ = [3, 2] ∧
      (Walk.next crooked.cells ⟨none, [3, 2]⟩).1 = crooked.cells[3]? ∧
      ∀ more,
        (((Walk.start crooked).after crooked.cells (4 + more)).next crooked.cells).1 = none := by
  have hlowest := Holds.node (rfl : crooked.cells[1]? = some _) .leaf .leaf
  have hinner := Holds.node (rfl : crooked.cells[3]? = some _) hlowest .leaf
  have houter := Holds.node (rfl : crooked.cells[0]? = some _) .leaf hinner
  have htop := Holds.node (rfl : crooked.cells[2]? = some _) houter .leaf
  have hholds : Holds crooked.cells crooked.top _ [0, 1, 3, 2] := htop
  have hnodup : [0, 1, 3, 2].Nodup := by decide
  have hstate : (Walk.start crooked).after crooked.cells 2 = ⟨none, [3, 2]⟩ := by decide
  obtain ⟨-, -, hcalls, -⟩ := walk_visits_inOrder hholds hnodup
  obtain ⟨-, hnext, -, hremaining⟩ := hcalls 2
  rw [hstate] at hnext hremaining
  refine ⟨_, hholds, hnodup, by decide, ?_, hstate, hremaining 0, hnext, fun more => ?_⟩
  · rw [Ordered]
    decide
  · obtain ⟨-, hnone, -⟩ := hcalls (4 + more)
    rw [hnone, List.getElem?_eq_none (by simp)]
    rfl

end Triliteral.Arena
