import Triliteral.Proofs.ArenaLayout

/-!
Insertion into an arena. Rotating, rebalancing and inserting by relinking cells do to the tree that
the cells hold what the operations of the same names do to trees.
-/

namespace Triliteral

theorem Root.side?_eq_none_iff {a b : Root} : a.side? b = none ↔ a = b := by
  unfold Root.side?
  constructor
  · intro h
    split at h
    · cases h
    · next hge =>
      split at h
      · cases h
      · next hle => exact Root.eq_of_not_lt hge hle
  · rintro rfl
    rw [if_neg (Root.lt_irrefl a), if_neg (Root.lt_irrefl a)]

namespace RootTree

def rotate (side : Side) (tree : RootTree) : RootTree :=
  match side with
  | .left => tree.rotateRight
  | .right => tree.rotateLeft

variable {side : Side} {a b c : RootTree} {lower upper : RootEntry} {i j : Nat}

theorem rotate_toward_leaf :
    (toward side leaf upper j c).rotate side = toward side leaf upper j c := by
  cases side <;> rfl

theorem rotate_toward_toward :
    (toward side (toward side a lower i b) upper j c).rotate side =
      joinToward side a lower (joinToward side b upper c) := by
  cases side <;> rfl

def relieve (root : Root) (side : Side) (near : RootTree) (entry : RootEntry) (height : Nat)
    (far : RootTree) : RootTree :=
  match near with
  | leaf => toward side leaf entry height far
  | node _ child _ _ =>
    match root.side? child.root with
    | none => toward side near entry height far
    | some turn =>
      if turn = side then (toward side near entry height far).rotate side
      else (toward side (near.rotate turn) entry height far).rotate side

theorem rebalance_eq (root : Root) (left right : RootTree) (entry : RootEntry) (height : Nat) :
    rebalance root (node left entry height right) =
      if 1 < (node left entry height right).balance then relieve root .left left entry height right
      else if (node left entry height right).balance < -1 then
        relieve root .right right entry height left
      else node left entry height right := by
  simp only [rebalance]
  split
  · cases left with
    | leaf => rfl
    | node _ child _ _ =>
        simp only [relieve, Root.side?]
        split_ifs <;> rfl
  · split
    · cases right with
      | leaf => rfl
      | node _ child _ _ =>
          simp only [relieve, Root.side?]
          split_ifs with hlt hgt
          · exact absurd hgt (Root.not_lt_of_lt hlt)
          all_goals rfl
    · rfl

theorem grow_toward {root : Root} (h : root.side? upper.root = some side) :
    grow root (toward side a upper j b) =
      rebalance root (joinToward side (grow root a) upper b) := by
  rw [Root.side?] at h
  split at h
  · next hlt =>
    obtain rfl := Option.some.inj h
    rw [toward, grow, if_pos hlt, joinToward]
  · next hge =>
    split at h
    · next hgt =>
      obtain rfl := Option.some.inj h
      rw [toward, grow, if_neg hge, if_pos hgt, joinToward]
    · cases h

theorem exists_eq_toward (side : Side) (left right : RootTree) (entry : RootEntry) (height : Nat) :
    ∃ near far, node left entry height right = toward side near entry height far := by
  cases side with
  | left => exact ⟨left, right, rfl⟩
  | right => exact ⟨right, left, rfl⟩

end RootTree

namespace Arena

open RootTree

variable {cells : List Cell} {top : Option Nat} {tree near far : RootTree}
  {places places' : List Nat} {entry : RootEntry} {height place : Nat} {side : Side}

/-! ### Rotations -/

theorem childAt_eq {cell : Cell} (hcell : cells[place]? = some cell) (side : Side) :
    childAt cells place side = cell.child side := by
  rw [childAt, hcell, Option.bind_some]

/-- Two changed links and two new heights turn a node and its child around. -/
theorem relinked_rotate_toward {cell childCell : Cell} {child : Nat} {a b : RootTree}
    {aPlaces bPlaces farPlaces : List Nat} (hcell : cells[place]? = some cell)
    (hchild : cell.child side = some child) (hchildCell : cells[child]? = some childCell)
    (ha : Holds cells (childCell.child side) a aPlaces)
    (hb : Holds cells (childCell.child side.other) b bPlaces)
    (hfar : Holds cells (cell.child side.other) far farPlaces)
    (hnodup : (side.arrange aPlaces child (side.arrange bPlaces place farPlaces)).Nodup) :
    Relinked cells (rotate side place cells)
      (joinToward side a childCell.entry (joinToward side b cell.entry far))
      (side.arrange aPlaces child (side.arrange bPlaces place farPlaces)) := by
  obtain ⟨hchildA, hchildLower, -, hlowerNodup, haLower⟩ := Side.nodup_arrange.mp hnodup
  obtain ⟨hne, hchildB, hchildFar⟩ : child ≠ place ∧ child ∉ bPlaces ∧ child ∉ farPlaces := by
    simpa only [Side.mem_arrange, not_or] using hchildLower
  rw [rotate, childAt_eq hcell, hchild]
  dsimp only
  rw [childAt_eq hchildCell]
  -- between its two new links the arena holds no tree: the two cells are each other's child
  generalize hcells₁ : setChild child side.other (some place) cells = cells₁
  have hsame : ∀ i, i ≠ child → cells₁[i]? = cells[i]? := by
    intro i hi
    rw [← hcells₁]
    exact List.getElem?_modify_ne _ _ hi.symm
  have hsame' : ∀ {top tree places}, Holds cells top tree places → child ∉ places →
      Holds cells₁ top tree places :=
    fun h hmem => h.frame fun i hi => hsame i fun heq => hmem (heq ▸ hi)
  have hentries : cells₁.map Cell.entry = cells.map Cell.entry := by
    rw [← hcells₁]
    exact map_modify_eq (fun _ => by cases side <;> rfl) child cells
  have hchildCell₁ : cells₁[child]? = some (childCell.withChild (some place) side.other) := by
    rw [← hcells₁, setChild, List.getElem?_modify_eq, hchildCell]
    rfl
  have hlower := relinked_attach ((hsame place hne.symm).trans hcell) (hsame' hb hchildB)
    (hsame' hfar hchildFar) hlowerNodup
  generalize updateHeight place (setChild place side (childCell.child side.other) cells₁) =
    cells₃ at hlower ⊢
  have ha₃ : Holds cells₃ (childCell.child side) a aPlaces :=
    (hsame' ha hchildA).frame fun i hi => hlower.outside i (haLower hi)
  have htop : Holds cells₃ (some child) (toward side a childCell.entry childCell.height
      (joinToward side b cell.entry far))
      (side.arrange aPlaces child (side.arrange bPlaces place farPlaces)) := by
    refine holds_toward_iff.mpr ⟨child, _, aPlaces, _, rfl,
      (hlower.outside child hchildLower).trans hchildCell₁, ?_, ?_, ?_, ?_, rfl⟩
    · cases side <;> rfl
    · cases side <;> rfl
    · cases side <;> exact ha₃
    · cases side <;> exact hlower.holds
  have hupper := relinked_updateHeight htop hnodup
  refine ⟨hupper.holds, (hupper.entries.trans hlower.entries).trans hentries, fun i hi => ?_⟩
  rw [hupper.outside i hi]
  rw [Side.mem_arrange, not_or, not_or] at hi
  rw [hlower.outside i hi.2.2, hsame i hi.1]

theorem relinked_rotate (side : Side) (h : Holds cells (some place) tree places)
    (hnodup : places.Nodup) :
    Relinked cells (rotate side place cells) (tree.rotate side) places := by
  obtain ⟨left, right, entry, height, rfl⟩ :
      ∃ left right entry height, tree = node left entry height right := by
    cases h with
    | node => exact ⟨_, _, _, _, rfl⟩
  obtain ⟨near, far, heq⟩ := exists_eq_toward side left right entry height
  rw [heq] at h ⊢
  obtain ⟨_, cell, nearPlaces, farPlaces, ⟨⟩, hcell, rfl, rfl, hnear, hfar, rfl⟩ :=
    holds_toward_iff.mp h
  cases near with
  | leaf =>
      generalize hchild : cell.child side = child at hnear
      cases hnear
      rw [rotate_toward_leaf, rotate, childAt_eq hcell, hchild]
      exact .refl h
  | node near₁ lower i near₂ =>
      obtain ⟨a, b, hab⟩ := exists_eq_toward side near₁ near₂ lower i
      rw [hab] at hnear ⊢
      obtain ⟨child, childCell, aPlaces, bPlaces, hchild, hchildCell, rfl, rfl, ha, hb, rfl⟩ :=
        holds_toward_iff.mp hnear
      rw [Side.arrange_arrange] at hnodup ⊢
      rw [rotate_toward_toward]
      exact relinked_rotate_toward hcell hchild hchildCell ha hb hfar hnodup

/-! ### Rebalancing -/

theorem Relinked.frame {result : Nat × List Cell} (h : Relinked cells result tree places)
    (hother : Holds cells top far places') (hdisjoint : ∀ i ∈ places', i ∉ places) :
    Holds result.2 top far places' :=
  hother.frame fun i hi => h.outside i (hdisjoint i hi)

theorem sideAt?_eq {new : Nat} {root : Root}
    (hnew : (cells.map Cell.entry)[new]? = some ⟨root, []⟩)
    (hplace : (cells.map Cell.entry)[place]? = some entry) :
    sideAt? cells new place = root.side? entry.root := by
  rw [List.getElem?_map, Option.map_eq_some_iff] at hnew hplace
  obtain ⟨cell, hcell, hroot⟩ := hnew
  obtain ⟨other, hother, rfl⟩ := hplace
  simp only [sideAt?, hcell, hother, Option.bind_eq_bind, Option.bind_some, hroot]

theorem map_entry_getElem? {cell : Cell} (h : cells[place]? = some cell) :
    (cells.map Cell.entry)[place]? = some cell.entry := by
  rw [List.getElem?_map, h, Option.map_some]

theorem relinked_relieve (side : Side) {new : Nat} {root : Root}
    (hnew : (cells.map Cell.entry)[new]? = some ⟨root, []⟩)
    (h : Holds cells (some place) (toward side near entry height far) places)
    (hnodup : places.Nodup) :
    Relinked cells (relieve new side place cells) (RootTree.relieve root side near entry height far)
      places := by
  obtain ⟨_, cell, nearPlaces, farPlaces, ⟨⟩, hcell, rfl, rfl, hnear, hfar, rfl⟩ :=
    holds_toward_iff.mp h
  rw [relieve, childAt_eq hcell]
  generalize hchild : cell.child side = child at hnear ⊢
  cases hnear with
  | leaf => exact .refl h
  | @node child childCell left right before after hchildCell hleft hright =>
      have hside := sideAt?_eq hnew (map_entry_getElem? hchildCell)
      simp only [RootTree.relieve, hside]
      cases root.side? childCell.entry.root with
      | none => exact .refl h
      | some turn =>
          dsimp only
          split
          · exact relinked_rotate side h hnodup
          · obtain ⟨hplaceNear, hplaceFar, hnearNodup, -, hdisjoint⟩ :=
              Side.nodup_arrange.mp hnodup
            have hturned := relinked_rotate turn (.node hchildCell hleft hright) hnearNodup
            have hset := relinked_setChild ((hturned.outside place hplaceNear).trans hcell)
              hturned.holds (hturned.frame hfar fun i hi hmem => hdisjoint hmem hi) hnodup
            have hrotated := relinked_rotate side hset.holds hnodup
            have hsubset : before ++ child :: after ⊆
                side.arrange (before ++ child :: after) place farPlaces :=
              fun i hi => Side.mem_arrange.mpr (.inr (.inl hi))
            exact hturned.trans (hset.trans hrotated (List.Subset.refl _)) hsubset

theorem excessAt_left {left right : RootTree}
    (h : Holds cells (some place) (node left entry height right) places) :
    excessAt cells place .left = (node left entry height right).balance := by
  cases h with
  | node hcell hleft hright =>
      simp only [excessAt, childAt, hcell, Option.bind_some]
      exact congrArg₂ (fun a b : Nat => (a : Int) - (b : Int)) hleft.heightAt_eq hright.heightAt_eq

theorem excessAt_other (cells : List Cell) (place : Nat) (side : Side) :
    excessAt cells place side.other = - excessAt cells place side := by
  cases side <;>
    · simp only [excessAt, Side.other]
      omega

theorem relinked_rebalance {new : Nat} {root : Root} {left right : RootTree}
    (hnew : (cells.map Cell.entry)[new]? = some ⟨root, []⟩)
    (h : Holds cells (some place) (node left entry height right) places) (hnodup : places.Nodup) :
    Relinked cells (rebalance new place cells)
      (RootTree.rebalance root (node left entry height right)) places := by
  have hleft := excessAt_left h
  have hright : excessAt cells place .right = _ := excessAt_other cells place .left
  rw [rebalance, rebalance_eq, hright, hleft]
  split
  · exact relinked_relieve .left hnew h hnodup
  · split
    · rw [if_pos (by omega)]
      exact relinked_relieve .right hnew h hnodup
    · rw [if_neg (by omega)]
      exact .refl h

/-! ### Insertion -/

theorem Relinked.attach {cell : Cell} {result : Nat × List Cell} {nearPlaces farPlaces : List Nat}
    (hgrown : Relinked cells result near nearPlaces) (hcell : cells[place]? = some cell)
    (hfar : Holds cells (cell.child side.other) far farPlaces)
    (hnodup : (side.arrange nearPlaces place farPlaces).Nodup) :
    Relinked cells (place, updateHeight place (setChild place side (some result.1) result.2))
      (joinToward side near cell.entry far) (side.arrange nearPlaces place farPlaces) := by
  obtain ⟨hplaceNear, -, -, -, hdisjoint⟩ := Side.nodup_arrange.mp hnodup
  have hattached := relinked_attach ((hgrown.outside place hplaceNear).trans hcell) hgrown.holds
    (hgrown.frame hfar fun i hi hmem => hdisjoint hmem hi) hnodup
  exact hgrown.trans hattached fun i hi => Side.mem_arrange.mpr (.inr (.inl hi))

theorem relinked_rebalance_joinToward {new : Nat} {root : Root}
    (hnew : (cells.map Cell.entry)[new]? = some ⟨root, []⟩)
    (h : Holds cells (some place) (joinToward side near entry far) places) (hnodup : places.Nodup) :
    Relinked cells (rebalance new place cells)
      (RootTree.rebalance root (joinToward side near entry far)) places := by
  cases side with
  | left => exact relinked_rebalance hnew h hnodup
  | right => exact relinked_rebalance hnew h hnodup

/-- The way of an insertion down a tree. At each node it turns to the side on which the new root
lies; the new place is not in the tree, where no place is met twice, and there are steps enough. -/
inductive Route (new : Nat) (root : Root) (cells : List Cell) :
    Nat → Option Nat → RootTree → List Nat → Prop
  | leaf (depth : Nat) : Route new root cells depth none .leaf []
  | node {depth place : Nat} {cell : Cell} {side : Side} {near far : RootTree}
      {nearPlaces farPlaces : List Nat} (hcell : cells[place]? = some cell)
      (hturn : root.side? cell.entry.root = some side)
      (hside : sideAt? cells new place = some side)
      (hnear : Route new root cells depth (cell.child side) near nearPlaces)
      (hfar : Holds cells (cell.child side.other) far farPlaces)
      (hnodup : (new :: side.arrange nearPlaces place farPlaces).Nodup) :
      Route new root cells (depth + 1) (some place)
        (toward side near cell.entry cell.height far) (side.arrange nearPlaces place farPlaces)

theorem Holds.route {new : Nat} {root : Root} {depth : Nat} (h : Holds cells top tree places)
    (hnew : cells[new]? = some (.ofRoot root)) (hnodup : (new :: places).Nodup)
    (hroot : root ∉ tree.roots) (hdepth : tree.trueHeight ≤ depth) :
    Route new root cells depth top tree places := by
  induction h generalizing depth with
  | leaf => exact .leaf depth
  | @node place cell left right before after hcell hleft hright ihLeft ihRight =>
      rw [roots_node, List.mem_append, List.mem_cons, not_or, not_or] at hroot
      obtain ⟨hrootLeft, hne, hrootRight⟩ := hroot
      rw [trueHeight] at hdepth
      obtain ⟨depth, rfl⟩ : ∃ rest, depth = rest + 1 := ⟨depth - 1, by omega⟩
      have hside := sideAt?_eq (map_entry_getElem? hnew) (map_entry_getElem? hcell)
      have hbefore : (new :: before).Nodup :=
        hnodup.sublist ((List.sublist_append_left before (place :: after)).cons_cons new)
      have hafter : (new :: after).Nodup :=
        hnodup.sublist (((List.sublist_cons_self place after).trans
          (List.sublist_append_right before (place :: after))).cons_cons new)
      cases hturn : root.side? cell.entry.root with
      | none => exact absurd (Root.side?_eq_none_iff.mp hturn) hne
      | some side =>
          rw [hturn] at hside
          cases side with
          | left =>
              have hbelow := @ihLeft depth hbefore hrootLeft (by omega)
              have hroute := Route.node hcell hturn hside hbelow hright hnodup
              exact hroute
          | right =>
              have hbelow := @ihRight depth hafter hrootRight (by omega)
              have hroute := Route.node hcell hturn hside hbelow hleft hnodup
              exact hroute

/-- An insertion along its way makes the new cell a node of the tree. -/
theorem Route.relinked {new : Nat} {root : Root} {depth : Nat}
    (h : Route new root cells depth top tree places) (hnew : cells[new]? = some (.ofRoot root)) :
    ∃ places', places'.Perm (new :: places) ∧
      Relinked cells (insertAt new depth top cells) (grow root tree) places' := by
  induction h with
  | leaf depth =>
      refine ⟨[new], .refl _, ?_⟩
      rw [insertAt]
      exact .refl (.node hnew .leaf .leaf)
  | @node _ place _ side _ _ _ farPlaces hcell hturn hside hnear hfar hnodup ih =>
      obtain ⟨nearPlaces', hperm, hgrown⟩ := ih
      have hpermAll := Side.arrange_perm_cons side place farPlaces hperm
      have hnodup' := hpermAll.nodup_iff.mpr hnodup
      have hattached := hgrown.attach hcell hfar hnodup'
      refine ⟨_, hpermAll, ?_⟩
      rw [grow_toward hturn, insertAt, hside]
      dsimp only
      rw [childAt_eq hcell]
      refine hattached.trans (relinked_rebalance_joinToward ?_ hattached.holds hnodup')
        (List.Subset.refl _)
      rw [hattached.entries]
      exact map_entry_getElem? hnew

end Arena

end Triliteral
