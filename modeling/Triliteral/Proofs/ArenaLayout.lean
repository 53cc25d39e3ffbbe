import Mathlib.Data.List.Nodup
import Mathlib.Data.List.Perm.Basic
import Triliteral.Proofs.TreeBalance
import Triliteral.RootTree.Arena

/-!
The cells of an arena as the nodes of a tree. Relinking cells does to the tree that they hold what
rotations, insertions and records do to trees, while every cell keeps its place and its entry.
-/

namespace Triliteral

namespace Side

/-- The places of a node in order, from those on a side, its own and those on the other side. -/
def arrange (side : Side) (near : List Nat) (place : Nat) (far : List Nat) : List Nat :=
  match side with
  | left => near ++ place :: far
  | right => far ++ place :: near

variable {side : Side} {near far : List Nat} {place i : Nat}

theorem mem_arrange : i ∈ side.arrange near place far ↔ i = place ∨ i ∈ near ∨ i ∈ far := by
  cases side <;> simp [arrange] <;> tauto

theorem nodup_arrange : (side.arrange near place far).Nodup ↔
    place ∉ near ∧ place ∉ far ∧ near.Nodup ∧ far.Nodup ∧ near.Disjoint far := by
  cases side
  · simp only [arrange, List.nodup_append', List.nodup_cons, List.disjoint_cons_right]
    tauto
  · simp only [arrange, List.nodup_append', List.nodup_cons, List.disjoint_cons_right,
      List.disjoint_comm]
    tauto

theorem arrange_arrange {places : List Nat} {i : Nat} :
    side.arrange (side.arrange places i near) place far =
      side.arrange places i (side.arrange near place far) := by
  cases side <;> simp [arrange]

theorem arrange_perm_cons {near' : List Nat} (side : Side) (place : Nat) (far : List Nat)
    (h : near'.Perm (i :: near)) :
    (side.arrange near' place far).Perm (i :: side.arrange near place far) := by
  cases side with
  | left => exact h.append_right (place :: far)
  | right =>
      have hcons : (place :: near').Perm (i :: place :: near) :=
        (h.cons place).trans (.swap i place near)
      exact (hcons.append_left far).trans List.perm_middle

end Side

namespace RootTree

def toward (side : Side) (near : RootTree) (entry : RootEntry) (height : Nat) (far : RootTree) :
    RootTree :=
  match side with
  | .left => node near entry height far
  | .right => node far entry height near

def joinToward (side : Side) (near : RootTree) (entry : RootEntry) (far : RootTree) : RootTree :=
  match side with
  | .left => join near entry far
  | .right => join far entry near

end RootTree

namespace Arena

open RootTree

/-- Holds if the cells that are reached from a place are the nodes of a tree; the places of its
nodes are listed in order. -/
inductive Holds (cells : List Cell) : Option Nat → RootTree → List Nat → Prop
  | leaf : Holds cells none .leaf []
  | node {place : Nat} {cell : Cell} {left right : RootTree} {before after : List Nat}
      (hcell : cells[place]? = some cell) (hleft : Holds cells cell.left left before)
      (hright : Holds cells cell.right right after) :
      Holds cells (some place) (.node left cell.entry cell.height right) (before ++ place :: after)

variable {cells cells' : List Cell} {top : Option Nat} {tree near far : RootTree}
  {places places' : List Nat} {entry : RootEntry} {height place : Nat} {side : Side}

theorem holds_toward_iff :
    Holds cells top (toward side near entry height far) places ↔
      ∃ place cell nearPlaces farPlaces, top = some place ∧ cells[place]? = some cell ∧
        cell.entry = entry ∧ cell.height = height ∧
        Holds cells (cell.child side) near nearPlaces ∧
        Holds cells (cell.child side.other) far farPlaces ∧
        places = side.arrange nearPlaces place farPlaces := by
  constructor
  · intro h
    cases side with
    | left =>
        cases h with
        | node hcell hleft hright => exact ⟨_, _, _, _, rfl, hcell, rfl, rfl, hleft, hright, rfl⟩
    | right =>
        cases h with
        | node hcell hleft hright => exact ⟨_, _, _, _, rfl, hcell, rfl, rfl, hright, hleft, rfl⟩
  · rintro ⟨place, cell, nearPlaces, farPlaces, rfl, hcell, rfl, rfl, hnear, hfar, rfl⟩
    cases side with
    | left => exact .node hcell hnear hfar
    | right => exact .node hcell hfar hnear

theorem Holds.frame (h : Holds cells top tree places)
    (hsame : ∀ i ∈ places, cells'[i]? = cells[i]?) : Holds cells' top tree places := by
  induction h with
  | leaf => exact .leaf
  | node hcell hleft hright ihLeft ihRight =>
      refine .node ((hsame _ (by simp)).trans hcell) (ihLeft fun i hi => hsame i ?_)
        (ihRight fun i hi => hsame i ?_)
      · exact List.mem_append_left _ hi
      · exact List.mem_append_right _ (List.mem_cons_of_mem _ hi)

theorem Holds.heightAt_eq (h : Holds cells top tree places) : heightAt cells top = tree.height := by
  cases h with
  | leaf => rfl
  | node hcell hleft hright => simp [heightAt, hcell, RootTree.height]

/-! ### Relinking -/

/-- What relinking makes of a part of an arena: the cells at some places are now the nodes of a tree
whose top is told, every cell has its entry, and all other cells are as they were. -/
structure Relinked (cells : List Cell) (result : Nat × List Cell) (tree : RootTree)
    (places : List Nat) : Prop where
  holds : Holds result.2 (some result.1) tree places
  entries : result.2.map Cell.entry = cells.map Cell.entry
  outside : ∀ i, i ∉ places → result.2[i]? = cells[i]?

theorem Relinked.refl (h : Holds cells (some place) tree places) :
    Relinked cells (place, cells) tree places :=
  ⟨h, rfl, fun _ _ => rfl⟩

theorem Relinked.trans {result result' : Nat × List Cell} {tree' : RootTree} {places' : List Nat}
    (h : Relinked cells result tree places) (h' : Relinked result.2 result' tree' places')
    (hsubset : places ⊆ places') : Relinked cells result' tree' places' := by
  refine ⟨h'.holds, h'.entries.trans h.entries, fun i hi => ?_⟩
  rw [h'.outside i hi, h.outside i fun hmem => hi (hsubset hmem)]

/-- What a change of one cell does not concern stays as it is in all cells. -/
theorem map_modify_eq {α : Type} {view : Cell → α} {change : Cell → Cell}
    (hchange : ∀ cell, view (change cell) = view cell) (place : Nat) (cells : List Cell) :
    (cells.modify place change).map view = cells.map view := by
  refine List.ext_getElem? fun i => ?_
  rw [List.getElem?_map, List.getElem?_map, List.getElem?_modify]
  cases cells[i]? with
  | none => rfl
  | some cell =>
      change some (view (if place = i then change cell else cell)) = some (view cell)
      split
      · rw [hchange]
      · rfl

theorem Holds.modify (h : Holds cells top tree places) (hplace : place ∉ places)
    (change : Cell → Cell) : Holds (cells.modify place change) top tree places := by
  refine h.frame fun i hi => List.getElem?_modify_ne _ _ ?_
  rintro rfl
  exact hplace hi

theorem relinked_modify (side : Side) {cell : Cell} {change : Cell → Cell}
    {nearPlaces farPlaces : List Nat} (hchange : ∀ cell, (change cell).entry = cell.entry)
    (hcell : cells[place]? = some cell)
    (hnear : Holds cells ((change cell).child side) near nearPlaces)
    (hfar : Holds cells ((change cell).child side.other) far farPlaces)
    (hnodup : (side.arrange nearPlaces place farPlaces).Nodup) :
    Relinked cells (place, cells.modify place change)
      (toward side near cell.entry (change cell).height far)
      (side.arrange nearPlaces place farPlaces) := by
  obtain ⟨hplaceNear, hplaceFar, -⟩ := Side.nodup_arrange.mp hnodup
  refine ⟨?_, map_modify_eq hchange place cells, fun i hi => ?_⟩
  · refine holds_toward_iff.mpr ⟨place, change cell, nearPlaces, farPlaces, rfl, ?_,
      hchange cell, rfl, hnear.modify hplaceNear change, hfar.modify hplaceFar change, rfl⟩
    rw [List.getElem?_modify_eq, hcell]
    rfl
  · refine List.getElem?_modify_ne _ _ ?_
    rintro rfl
    exact hi (Side.mem_arrange.mpr (.inl rfl))

theorem relinked_setChild {cell : Cell} {child : Option Nat} {nearPlaces farPlaces : List Nat}
    (hcell : cells[place]? = some cell) (hnear : Holds cells child near nearPlaces)
    (hfar : Holds cells (cell.child side.other) far farPlaces)
    (hnodup : (side.arrange nearPlaces place farPlaces).Nodup) :
    Relinked cells (place, setChild place side child cells)
      (toward side near cell.entry cell.height far) (side.arrange nearPlaces place farPlaces) := by
  cases side with
  | left => exact relinked_modify .left (fun _ => rfl) hcell hnear hfar hnodup
  | right => exact relinked_modify .right (fun _ => rfl) hcell hnear hfar hnodup

theorem relinked_updateHeight
    (h : Holds cells (some place) (toward side near entry height far) places)
    (hnodup : places.Nodup) :
    Relinked cells (place, updateHeight place cells) (joinToward side near entry far) places := by
  obtain ⟨_, cell, nearPlaces, farPlaces, ⟨⟩, hcell, rfl, -, hnear, hfar, rfl⟩ :=
    holds_toward_iff.mp h
  have hnearHeight : heightAt cells (cell.child side) = near.height := hnear.heightAt_eq
  have hfarHeight : heightAt cells (cell.child side.other) = far.height := hfar.heightAt_eq
  cases side with
  | left =>
      rw [joinToward, join, ← hnearHeight, ← hfarHeight]
      exact relinked_modify .left (fun _ => rfl) hcell hnear hfar hnodup
  | right =>
      rw [joinToward, join, ← hnearHeight, ← hfarHeight]
      exact relinked_modify .right (fun _ => rfl) hcell hnear hfar hnodup

theorem relinked_attach {cell : Cell} {child : Option Nat} {nearPlaces farPlaces : List Nat}
    (hcell : cells[place]? = some cell) (hnear : Holds cells child near nearPlaces)
    (hfar : Holds cells (cell.child side.other) far farPlaces)
    (hnodup : (side.arrange nearPlaces place farPlaces).Nodup) :
    Relinked cells (place, updateHeight place (setChild place side child cells))
      (joinToward side near cell.entry far) (side.arrange nearPlaces place farPlaces) := by
  have hlinked := relinked_setChild hcell hnear hfar hnodup
  exact hlinked.trans (relinked_updateHeight hlinked.holds hnodup) (List.Subset.refl _)

end Arena

end Triliteral
