import Triliteral.Proofs.TreeHeights

/-!
Nodes visited by an insertion once one of their sides has grown. A node that is too high then is
relieved by rotations, each of which finds the child that it brings up, and gets back the height
that it had. The fallbacks of rebalancing are never taken.
-/

namespace Triliteral

namespace RootTree

variable {near far : RootTree} {entry : RootEntry} {height : Nat} {side : Side} {root : Root}

/-- A balanced tree in order to which a root can be added. -/
structure Lacks (tree : RootTree) (root : Root) : Prop where
  balanced : tree.Balanced
  ordered : tree.Ordered
  absent : root ∉ tree.roots

theorem Lacks.of_toward (h : (toward side near entry height far).Lacks root) : near.Lacks root where
  balanced := (balanced_toward_iff.mp h.balanced).1
  ordered := (ordered_toward_iff.mp h.ordered).1
  absent hmem := h.absent (mem_roots_toward.mpr (.inr (.inl hmem)))

end RootTree

namespace Arena

open RootTree

variable {cells before : List Cell} {top : Option Nat} {tree near far : RootTree}
  {places : List Nat} {entry found : RootEntry} {height place i new : Nat} {side turn : Side}
  {root : Root} {child : Nat}

/-! ### Visits -/

/-- A node on the way back up: its place, and the cells as they are when it is about to be
rebalanced. -/
structure Visit where
  place : Nat
  cells : List Cell
  deriving DecidableEq

namespace Visit

def excess (visit : Visit) (side : Side) : Int :=
  excessAt visit.cells visit.place side

def IsHigh (visit : Visit) : Prop :=
  ∃ side, 1 < visit.excess side

def result (new : Nat) (visit : Visit) : Nat × List Cell :=
  rebalance new visit.place visit.cells

end Visit

/-- How a node that is too high on a side is relieved. The insertion went to this side, on which
there is a child, and from there on to the side of a grandchild; the new cell is in the tree of the
grandchild, the higher one of the child's trees. If the grandchild is on the same side of the child,
one rotation brings up the child. Otherwise one brings up the grandchild over the child and another
one over the node. -/
structure Relief (new : Nat) (visit : Visit) (side turn : Side) (child grandchild : Nat) :
    Prop where
  side_eq : sideAt? visit.cells new visit.place = some side
  child_eq : childAt visit.cells visit.place side = some child
  turn_eq : sideAt? visit.cells new child = some turn
  grandchild_eq : childAt visit.cells child turn = some grandchild
  distinct : [visit.place, child, grandchild].Nodup
  inserted : ∃ high low highPlaces lowPlaces,
    Holds visit.cells (some grandchild) high highPlaces ∧ new ∈ highPlaces ∧
      Holds visit.cells (childAt visit.cells child turn.other) low lowPlaces ∧
      high.trueHeight = low.trueHeight + 1
  single : turn = side → visit.result new = rotate side visit.place visit.cells ∧
    (visit.result new).1 = child
  double : turn ≠ side → ∃ turned, rotate turn child visit.cells = (grandchild, turned) ∧
    visit.result new =
      rotate side visit.place (setChild visit.place side (some grandchild) turned) ∧
    (visit.result new).1 = grandchild

/-! ### Rotations and their children -/

theorem rotate_fst (h : childAt cells place side = some child) :
    (rotate side place cells).1 = child := by
  rw [rotate, h]

theorem childAt_setChild (h : childAt cells place side = some child) (other : Option Nat) :
    childAt (setChild place side other cells) place side = other := by
  obtain ⟨cell, hcell, -⟩ := Option.bind_eq_some_iff.mp h
  rw [childAt, setChild, List.getElem?_modify_eq, hcell]
  cases side <;> rfl

theorem rebalance_of_excess (h : 1 < excessAt cells place side) (new : Nat) :
    rebalance new place cells = relieve new side place cells := by
  have hother := excessAt_other cells place .left
  rw [rebalance]
  cases side with
  | left => rw [if_pos h]
  | right =>
      rw [Side.other] at hother
      rw [if_neg (by omega), if_pos h]

theorem rebalance_of_no_excess (h : ∀ side, excessAt cells place side ≤ 1) (new : Nat) :
    rebalance new place cells = (place, cells) := by
  rw [rebalance, if_neg (h .left).not_gt, if_neg (h .right).not_gt]

theorem relieve_of_eq (hchild : childAt cells place side = some child)
    (hturn : sideAt? cells new child = some side) :
    relieve new side place cells = rotate side place cells := by
  rw [relieve, hchild]
  dsimp only
  rw [hturn]
  exact if_pos rfl

theorem relieve_of_ne (hchild : childAt cells place side = some child)
    (hturn : sideAt? cells new child = some turn) (hne : turn ≠ side) :
    relieve new side place cells =
      rotate side place (setChild place side (some (rotate turn child cells).1)
        (rotate turn child cells).2) := by
  rw [relieve, hchild]
  dsimp only
  rw [hturn]
  exact if_neg hne

theorem Relief.result_ne {visit : Visit} {grandchild : Nat}
    (h : Relief new visit side turn child grandchild) : (visit.result new).1 ≠ visit.place := by
  have hdistinct := h.distinct
  simp only [List.nodup_cons, List.mem_cons, not_or] at hdistinct
  by_cases hturn : turn = side
  · rw [(h.single hturn).2]
    exact Ne.symm hdistinct.1.1
  · obtain ⟨turned, -, -, htop⟩ := h.double hturn
    rw [htop]
    exact Ne.symm hdistinct.1.2.1

/-! ### Trees at visited nodes -/

theorem Holds.excessAt_toward
    (h : Holds cells (some place) (toward side near entry height far) places) :
    excessAt cells place side = (near.height : Int) - far.height := by
  obtain ⟨_, cell, nearPlaces, farPlaces, ⟨⟩, hcell, -, -, hnear, hfar, -⟩ := holds_toward_iff.mp h
  rw [excessAt, childAt_eq hcell, childAt_eq hcell, hnear.heightAt_eq, hfar.heightAt_eq]

theorem Holds.mem_roots (h : Holds cells top tree places) (hi : i ∈ places)
    (hentry : (cells.map Cell.entry)[i]? = some found) : found.root ∈ tree.roots := by
  induction h with
  | leaf => cases hi
  | node hcell hleft hright ihLeft ihRight =>
      rw [roots_node, List.mem_append, List.mem_cons]
      rcases List.mem_append.mp hi with hi | hi
      · exact .inl (ihLeft hi)
      · rcases List.mem_cons.mp hi with rfl | hi
        · rw [map_entry_getElem? hcell] at hentry
          exact .inr (.inl (congrArg RootEntry.root (Option.some.inj hentry)).symm)
        · exact .inr (.inr (ihRight hi))

theorem Holds.exists_place (h : Holds cells top tree places) (hi : i ∈ places) :
    ∃ place, top = some place ∧ place ∈ places := by
  cases h with
  | leaf => cases hi
  | @node place => exact ⟨place, rfl, by simp⟩

/-- A cell of an ordered tree is below the child on whose side its root lies. -/
theorem Holds.exists_child
    (h : Holds cells (some place) (toward side near entry height far) places)
    (hordered : (toward side near entry height far).Ordered) (hmem : new ∈ places)
    (hnew : (cells.map Cell.entry)[new]? = some ⟨root, []⟩)
    (hside : root.side? entry.root = some side) :
    sideAt? cells new place = some side ∧
      ∃ child nearPlaces farPlaces, childAt cells place side = some child ∧
        Holds cells (some child) near nearPlaces ∧
        Holds cells (childAt cells place side.other) far farPlaces ∧
        places = side.arrange nearPlaces place farPlaces ∧
        new ∈ nearPlaces ∧ child ∈ nearPlaces := by
  obtain ⟨_, cell, nearPlaces, farPlaces, ⟨⟩, hcell, rfl, rfl, hnear, hfar, rfl⟩ :=
    holds_toward_iff.mp h
  obtain ⟨-, -, -, hfarSide⟩ := ordered_toward_iff.mp hordered
  have hplace := map_entry_getElem? hcell
  have hnewNear : new ∈ nearPlaces := by
    rcases Side.mem_arrange.mp hmem with rfl | hmem | hmem
    · rw [Option.some.inj (hplace.symm.trans hnew), Root.side?_eq_none_iff.mpr rfl] at hside
      cases hside
    · exact hmem
    · have hother := hfarSide _ (hfar.mem_roots hmem hnew)
      rw [hside] at hother
      cases side <;> cases hother
  obtain ⟨child, hchild, hchildNear⟩ := hnear.exists_place hnewNear
  rw [hchild] at hnear
  refine ⟨(sideAt?_eq hnew hplace).trans hside, child, nearPlaces, farPlaces, ?_, hnear, ?_, rfl,
    hnewNear, hchildNear⟩
  · rw [childAt_eq hcell, hchild]
  · rwa [childAt_eq hcell]

/-- Holds if the cells that are reached from a place are the nodes of a balanced tree of a height,
where every height kept is the true one. -/
def HasHeight (cells : List Cell) (top : Option Nat) (height : Nat) : Prop :=
  ∃ tree places, Holds cells top tree places ∧ tree.Balanced ∧ tree.trueHeight = height

theorem HasHeight.heightAt_eq (h : HasHeight cells top height) : heightAt cells top = height := by
  obtain ⟨tree, places, hholds, hbalanced, rfl⟩ := h
  rw [hholds.heightAt_eq, hbalanced.height_eq]

theorem Holds.hasHeight_of_mem (h : Holds cells top tree places) (hbalanced : tree.Balanced)
    (hi : i ∈ places) : HasHeight cells (some i) (heightAt cells (some i)) := by
  induction h with
  | leaf => cases hi
  | node hcell hleft hright ihLeft ihRight =>
      rcases List.mem_append.mp hi with hi | hi
      · exact ihLeft hbalanced.1 hi
      · rcases List.mem_cons.mp hi with rfl | hi
        · have hholds := Holds.node hcell hleft hright
          refine ⟨_, _, hholds, hbalanced, ?_⟩
          rw [hholds.heightAt_eq, hbalanced.height_eq]
        · exact ihRight hbalanced.2.1 hi

/-- What is known when a node is visited. It was the top of a balanced tree in order; the side on
which the new root lies has grown since. -/
structure Visit.Finds (new : Nat) (root : Root) (before : List Cell) (visit : Visit) (side : Side)
    (near : RootTree) (entry : RootEntry) (height : Nat) (far : RootTree)
    (placesBefore places : List Nat) : Prop where
  stood : Holds before (some visit.place) (toward side near entry height far) placesBefore
  lacks : (toward side near entry height far).Lacks root
  turn : root.side? entry.root = some side
  stands : Holds visit.cells (some visit.place) (joinToward side (grow root near) entry far) places
  nodup : places.Nodup
  new_entry : (visit.cells.map Cell.entry)[new]? = some ⟨root, []⟩
  new_mem : new ∈ places

namespace Visit

variable {visit : Visit} {placesBefore : List Nat}

theorem not_isHigh_iff : ¬ visit.IsHigh ↔ ∀ side, visit.excess side ≤ 1 := by
  simp only [IsHigh, not_exists, Int.not_lt]

theorem result_of_not_isHigh (h : ¬ visit.IsHigh) (new : Nat) :
    visit.result new = (visit.place, visit.cells) :=
  rebalance_of_no_excess (not_isHigh_iff.mp h) new

theorem result_of_single (hhigh : 1 < visit.excess side)
    (hchild : childAt visit.cells visit.place side = some child)
    (hside : sideAt? visit.cells new child = some side) :
    visit.result new = rotate side visit.place visit.cells ∧ (visit.result new).1 = child := by
  rw [result, rebalance_of_excess hhigh, relieve_of_eq hchild hside]
  exact ⟨rfl, rotate_fst hchild⟩

theorem result_of_double {grandchild : Nat} (hhigh : 1 < visit.excess side)
    (hchild : childAt visit.cells visit.place side = some child)
    (hturn : sideAt? visit.cells new child = some turn)
    (hgrandchild : childAt visit.cells child turn = some grandchild) (hne : turn ≠ side)
    (hkept : (rotate turn child visit.cells).2[visit.place]? = visit.cells[visit.place]?) :
    ∃ turned, rotate turn child visit.cells = (grandchild, turned) ∧
      visit.result new =
        rotate side visit.place (setChild visit.place side (some grandchild) turned) ∧
      (visit.result new).1 = grandchild := by
  have hfirst := rotate_fst hgrandchild
  have hturned : childAt (rotate turn child visit.cells).2 visit.place side = some child := by
    rw [childAt, hkept, ← hchild, childAt]
  rw [result, rebalance_of_excess hhigh, relieve_of_ne hchild hturn hne, hfirst]
  exact ⟨_, Prod.ext hfirst rfl, rfl, rotate_fst (childAt_setChild hturned _)⟩

namespace Finds

variable (h : visit.Finds new root before side near entry height far placesBefore places)

include h

theorem far_balanced : far.Balanced :=
  (balanced_toward_iff.mp h.lacks.balanced).2.1

theorem grown : Grown root near (grow root near) :=
  grown_grow root h.lacks.of_toward.balanced

theorem stands_toward :
    Holds visit.cells (some visit.place) (toward side (grow root near) entry
      (1 + max (grow root near).trueHeight far.trueHeight) far) places :=
  joinToward_eq h.grown.balanced h.far_balanced entry ▸ h.stands

theorem ordered_toward (kept : Nat) :
    (toward side (grow root near) entry kept far).Ordered := by
  obtain ⟨hnear, hfar, hnearSide, hfarSide⟩ := ordered_toward_iff.mp h.lacks.ordered
  have habsent := h.lacks.of_toward.absent
  refine ordered_toward_iff.mpr ⟨hnear.grow habsent, hfar, fun other hother => ?_, hfarSide⟩
  rcases (mem_roots_grow hnear habsent).mp hother with rfl | hother
  · exact h.turn
  · exact hnearSide other hother

/-! ### Heights at visited nodes -/

theorem excess_eq :
    visit.excess side = ((grow root near).trueHeight : Int) - far.trueHeight := by
  rw [excess, h.stands_toward.excessAt_toward, h.grown.balanced.height_eq,
    h.far_balanced.height_eq]

theorem level :
    near.trueHeight ≤ far.trueHeight + 1 ∧ far.trueHeight ≤ near.trueHeight + 1 ∧
      height = 1 + max near.trueHeight far.trueHeight ∧
      ((grow root near).trueHeight = near.trueHeight ∨
        (grow root near).trueHeight = near.trueHeight + 1) := by
  obtain ⟨-, -, hle, hge, hheight⟩ := balanced_toward_iff.mp h.lacks.balanced
  exact ⟨hle, hge, hheight, h.grown.height.imp_right And.left⟩

theorem excess_bounds (turn : Side) : -2 ≤ visit.excess turn ∧ visit.excess turn ≤ 2 := by
  have hexcess := h.excess_eq
  have hother := excessAt_other visit.cells visit.place side
  obtain ⟨hle, hge, -, hgrown⟩ := h.level
  rw [excess] at hexcess ⊢
  cases side <;> cases turn <;> simp only [Side.other] at hother <;> omega

/-- Only the side of the new root can be too high. -/
theorem eq_side (hhigh : 1 < visit.excess turn) : turn = side := by
  have hexcess := h.excess_eq
  have hother := excessAt_other visit.cells visit.place side
  obtain ⟨-, hge, -, hgrown⟩ := h.level
  rw [excess] at hexcess hhigh
  cases side <;> cases turn <;> simp only [Side.other, reduceCtorEq] at hother ⊢ <;> omega

theorem isHigh_iff : visit.IsHigh ↔ (grow root near).trueHeight = far.trueHeight + 2 := by
  have hexcess := h.excess_eq
  obtain ⟨-, hle⟩ := h.excess_bounds side
  constructor
  · rintro ⟨turn, hhigh⟩
    obtain rfl := h.eq_side hhigh
    omega
  · intro hheight
    exact ⟨side, by omega⟩

theorem highToward (hhigh : visit.IsHigh) : (grow root near).HighToward root := by
  have hheight := h.isHigh_iff.mp hhigh
  obtain ⟨hle, -⟩ := h.level
  rcases h.grown.height with hsame | ⟨-, hup⟩
  · omega
  · exact hup

/-- The height of a node that was relieved is the one that it had before the insertion. -/
theorem trueHeight_of_isHigh (hhigh : visit.IsHigh) :
    (grow root (toward side near entry height far)).trueHeight =
      (toward side near entry height far).trueHeight := by
  obtain ⟨hle, hge, -, hgrown⟩ := h.level
  have hheight := h.isHigh_iff.mp hhigh
  rw [grow_toward h.turn, trueHeight_toward,
    trueHeight_rebalance_of_high h.grown.balanced h.far_balanced (h.highToward hhigh) hheight]
  omega

/-- A node whose side did not grow is not too high and keeps its height. -/
theorem trueHeight_of_eq (hsame : (grow root near).trueHeight = near.trueHeight) :
    ¬ visit.IsHigh ∧
      (grow root (toward side near entry height far)).trueHeight =
        (toward side near entry height far).trueHeight := by
  obtain ⟨hle, hge, -, -⟩ := h.level
  rw [h.isHigh_iff, grow_toward h.turn,
    rebalance_joinToward_of_level h.grown.balanced h.far_balanced (by omega) (by omega),
    joinToward_eq h.grown.balanced h.far_balanced, trueHeight_toward, trueHeight_toward, hsame]
  exact ⟨by omega, rfl⟩

theorem relinked :
    Relinked visit.cells (visit.result new) (grow root (toward side near entry height far))
      places :=
  grow_toward h.turn ▸ relinked_rebalance_joinToward h.new_entry h.stands h.nodup

theorem hasHeight_result
    (hsame : (grow root (toward side near entry height far)).trueHeight =
      (toward side near entry height far).trueHeight) :
    HasHeight (visit.result new).2 (some (visit.result new).1)
      (heightAt before (some visit.place)) := by
  refine ⟨_, places, h.relinked.holds, (grown_grow root h.lacks.balanced).balanced, ?_⟩
  rw [hsame, h.stood.heightAt_eq, h.lacks.balanced.height_eq]

/-! ### Reliefs -/

/-- A node that is too high has the child and the grandchild that a relief needs. -/
theorem exists_relief (turn : Side) (hexcess : visit.excess turn = 2) :
    ∃ next child grandchild, Relief new visit turn next child grandchild := by
  have hhigh : 1 < visit.excess turn := by omega
  obtain rfl := h.eq_side hhigh
  have hheight := h.isHigh_iff.mp ⟨turn, hhigh⟩
  -- the new cell is on this side of the node, and on the higher side of the child that is there
  obtain ⟨hside, child, nearPlaces, farPlaces, hchild, hnear, -, hplaces, hnewNear, hchildNear⟩ :=
    h.stands_toward.exists_child (h.ordered_toward _) h.new_mem h.new_entry h.turn
  have hordered := (ordered_toward_iff.mp (h.ordered_toward 0)).1
  obtain ⟨next, high, low, childEntry, childHeight, heq, hnext, hlevel⟩ :=
    (h.highToward ⟨turn, hhigh⟩).exists_side (by omega)
  rw [heq] at hnear hordered
  obtain ⟨hchildSide, grandchild, highPlaces, lowPlaces, hgrandchild, hhighHolds, hlowHolds,
    hnearPlaces, hnewHigh, hgrandchildHigh⟩ :=
    hnear.exists_child hordered hnewNear h.new_entry hnext
  obtain ⟨hplaceNear, -, hnearNodup, -⟩ := Side.nodup_arrange.mp (hplaces ▸ h.nodup)
  refine ⟨next, child, grandchild, hside, hchild, hchildSide, hgrandchild, ?_, ?_, ?_,
    fun hne => ?_⟩
  · obtain ⟨hchildHigh, -⟩ := Side.nodup_arrange.mp (hnearPlaces ▸ hnearNodup)
    have hgrandchildNear : grandchild ∈ nearPlaces :=
      hnearPlaces ▸ Side.mem_arrange.mpr (.inr (.inl hgrandchildHigh))
    have hne := (ne_of_mem_of_not_mem hchildNear hplaceNear).symm
    have hne' := (ne_of_mem_of_not_mem hgrandchildNear hplaceNear).symm
    have hne'' := (ne_of_mem_of_not_mem hgrandchildHigh hchildHigh).symm
    simp [hne, hne', hne'']
  · exact ⟨high, low, highPlaces, lowPlaces, hhighHolds, hnewHigh, hlowHolds, hlevel⟩
  · rintro rfl
    exact result_of_single hhigh hchild hchildSide
  · -- the rotation of the child does not touch the node above it
    have hturned := relinked_rotate next hnear hnearNodup
    exact result_of_double hhigh hchild hchildSide hgrandchild hne
      (hturned.outside visit.place hplaceNear)

theorem result_eq_iff :
    visit.result new = (visit.place, visit.cells) ↔ ∀ turn, visit.excess turn ≤ 1 := by
  constructor
  · intro hsame turn
    by_contra hhigh
    obtain ⟨-, hle⟩ := h.excess_bounds turn
    obtain ⟨next, child, grandchild, hrelief⟩ := h.exists_relief turn (by omega)
    exact hrelief.result_ne (congrArg Prod.fst hsame)
  · intro hlevel
    exact result_of_not_isHigh (not_isHigh_iff.mpr hlevel) new

end Finds

end Visit

end Arena

end Triliteral
