import Mathlib.Data.List.Range
import Triliteral.Proofs.ArenaInsertion

/-!
Arenas that represent trees. Looking up, inserting and recording in an arena give what they give in
the tree that the arena represents, and no cell is ever lost.
-/

namespace Triliteral

theorem RootTree.trueHeight_le_size (tree : RootTree) : tree.trueHeight ≤ tree.size := by
  induction tree with
  | leaf => exact Nat.le_refl 0
  | node left entry height right ihLeft ihRight =>
      simp only [trueHeight, size]
      omega

namespace Arena

open RootTree

variable {cells : List Cell} {top : Option Nat} {tree : RootTree} {places : List Nat} {depth : Nat}

theorem Holds.length_eq (h : Holds cells top tree places) : places.length = tree.size := by
  induction h with
  | leaf => rfl
  | node hcell hleft hright ihLeft ihRight =>
      simp only [List.length_append, List.length_cons, ihLeft, ihRight, size]
      omega

/-! ### Looking up -/

theorem Holds.findPlace?_mem (h : Holds cells top tree places) {text : String} {place : Nat}
    (hfound : findPlace? cells text depth top = some place) : place ∈ places := by
  induction h generalizing depth with
  | leaf => cases depth <;> cases hfound
  | node hcell hleft hright ihLeft ihRight =>
      cases depth with
      | zero => cases hfound
      | succ depth =>
          rw [findPlace?, hcell] at hfound
          dsimp only at hfound
          split at hfound
          · exact List.mem_append_left _ (ihLeft hfound)
          · split at hfound
            · exact List.mem_append_right _ (List.mem_cons_of_mem _ (ihRight hfound))
            · obtain rfl := Option.some.inj hfound
              exact List.mem_append_right _ List.mem_cons_self

theorem Holds.findPlace?_eq (h : Holds cells top tree places) (hdepth : tree.trueHeight ≤ depth)
    (text : String) :
    ((findPlace? cells text depth top).bind fun place => cells[place]?.map Cell.node) =
      tree.findText? text := by
  induction h generalizing depth with
  | leaf => cases depth <;> rfl
  | node hcell hleft hright ihLeft ihRight =>
      rw [trueHeight] at hdepth
      obtain ⟨depth, rfl⟩ : ∃ rest, depth = rest + 1 := ⟨depth - 1, by omega⟩
      rw [findPlace?, hcell, findText?]
      dsimp only
      split
      · exact ihLeft (by omega)
      · split
        · exact ihRight (by omega)
        · rw [Option.bind_some, hcell]
          rfl

/-! ### Recording -/

theorem recordAt_getElem?_of_ne {place : Option Nat} {i : Nat} (h : place ≠ some i)
    (derivation : Derivation) (cells : List Cell) :
    (recordAt derivation place cells)[i]? = cells[i]? := by
  cases place with
  | none => rfl
  | some place => exact List.getElem?_modify_ne _ _ fun heq => h (congrArg some heq)

theorem Holds.recordAt_of_not_mem (h : Holds cells top tree places) {found : Option Nat}
    (hfound : ∀ i ∈ places, found ≠ some i) (derivation : Derivation) :
    Holds (recordAt derivation found cells) top tree places :=
  h.frame fun i hi => recordAt_getElem?_of_ne (hfound i hi) derivation cells

theorem Holds.record (h : Holds cells top tree places) (hnodup : places.Nodup)
    (hdepth : tree.trueHeight ≤ depth) (root : Root) (derivation : Derivation) :
    Holds (recordAt derivation (findPlace? cells root.text depth top) cells) top
      (tree.record root derivation) places := by
  induction h generalizing depth with
  | leaf => exact .leaf
  | @node place cell left right before after hcell hleft hright ihLeft ihRight =>
      rw [trueHeight] at hdepth
      obtain ⟨depth, rfl⟩ : ∃ rest, depth = rest + 1 := ⟨depth - 1, by omega⟩
      obtain ⟨hbefore, hafter, hdisjoint⟩ := List.nodup_append'.mp hnodup
      obtain ⟨hplaceAfter, hafter⟩ := List.nodup_cons.mp hafter
      have hplaceBefore : place ∉ before := fun hmem => hdisjoint hmem List.mem_cons_self
      rw [findPlace?, hcell]
      dsimp only
      simp only [Root.text_lt_text_iff, RootTree.record]
      -- the cell that changes is on the side to which the descent goes, or it is this one
      split
      · have hother : findPlace? cells root.text depth cell.left ≠ some place :=
          fun hfound => hplaceBefore (hleft.findPlace?_mem hfound)
        have hcell' := (recordAt_getElem?_of_ne hother derivation cells).trans hcell
        refine .node hcell' (ihLeft hbefore (by omega)) ?_
        refine hright.recordAt_of_not_mem (fun i hi hfound => ?_) derivation
        exact hdisjoint (hleft.findPlace?_mem hfound) (List.mem_cons_of_mem _ hi)
      · split
        · have hother : findPlace? cells root.text depth cell.right ≠ some place :=
            fun hfound => hplaceAfter (hright.findPlace?_mem hfound)
          have hcell' := (recordAt_getElem?_of_ne hother derivation cells).trans hcell
          refine .node hcell' ?_ (ihRight hafter (by omega))
          refine hleft.recordAt_of_not_mem (fun i hi hfound => ?_) derivation
          exact hdisjoint hi (List.mem_cons_of_mem _ (hright.findPlace?_mem hfound))
        · have hcell' : (recordAt derivation (some place) cells)[place]? =
              some (cell.record derivation) := by
            rw [recordAt, List.getElem?_modify_eq, hcell]
            rfl
          exact .node hcell' (hleft.modify hplaceBefore _) (hright.modify hplaceAfter _)

/-! ### Representation -/

/-- Holds if the cells of an arena, each of them once, are the nodes of a tree. -/
def Represents (arena : Arena) (tree : RootTree) : Prop :=
  ∃ places, Holds arena.cells arena.top tree places ∧
    places.Perm (List.range arena.cells.length)

variable {arena : Arena} {root : Root}

theorem represents_empty : empty.Represents leaf :=
  ⟨[], .leaf, .refl _⟩

theorem Represents.trueHeight_le (h : arena.Represents tree) :
    tree.trueHeight ≤ arena.cells.length := by
  obtain ⟨places, hholds, hperm⟩ := h
  rw [← List.length_range (n := arena.cells.length), ← hperm.length_eq, hholds.length_eq]
  exact trueHeight_le_size tree

theorem Represents.find?_eq (h : arena.Represents tree) (text : String) :
    (arena.find? text).map Cell.node = tree.findText? text := by
  have hdepth := h.trueHeight_le
  obtain ⟨places, hholds, -⟩ := h
  rw [find?, Option.map_bind]
  exact hholds.findPlace?_eq hdepth text

theorem Represents.record (h : arena.Represents tree) (root : Root) (derivation : Derivation) :
    (arena.record root.text derivation).Represents (tree.record root derivation) := by
  have hdepth := h.trueHeight_le
  obtain ⟨places, hholds, hperm⟩ := h
  have hnodup : places.Nodup := hperm.nodup_iff.mpr List.nodup_range
  refine ⟨places, hholds.record hnodup hdepth root derivation, ?_⟩
  have hlength : (recordAt derivation (arena.place? root.text) arena.cells).length =
      arena.cells.length := by
    cases arena.place? root.text with
    | none => rfl
    | some place => exact List.length_modify ..
  rw [Arena.record, hlength]
  exact hperm

theorem Represents.place?_eq_none_iff (h : arena.Represents tree) {text : String} :
    arena.place? text = none ↔ tree.findText? text = none := by
  rw [← h.find?_eq, Option.map_eq_none_iff, find?]
  obtain ⟨places, hholds, hperm⟩ := h
  cases hplace : arena.place? text with
  | none => simp
  | some place =>
      have hmem : place ∈ List.range arena.cells.length :=
        hperm.mem_iff.mp (hholds.findPlace?_mem hplace)
      simpa using List.mem_range.mp hmem

theorem getElem?_append_ofRoot (cells : List Cell) (root : Root) :
    (cells ++ [.ofRoot root])[cells.length]? = some (.ofRoot root) := by
  simp

theorem Represents.place?_text_eq_none_iff (h : arena.Represents tree) (hordered : tree.Ordered) :
    arena.place? root.text = none ↔ root ∉ tree.roots := by
  rw [h.place?_eq_none_iff, findText?_eq, Root.ofText?_text, Option.bind_some,
    ← contains_iff hordered, contains, Option.not_isSome_iff_eq_none]

theorem Represents.route (h : arena.Represents tree) (hnew : root ∉ tree.roots) :
    ∃ places, Holds arena.cells arena.top tree places ∧
      places.Perm (List.range arena.cells.length) ∧
      Route arena.cells.length root (arena.cells ++ [.ofRoot root]) arena.cells.length arena.top
        tree places := by
  have hdepth := h.trueHeight_le
  obtain ⟨places, hholds, hperm⟩ := h
  have hplaces : ∀ i ∈ places, i < arena.cells.length :=
    fun i hi => List.mem_range.mp (hperm.mem_iff.mp hi)
  have hholds' : Holds (arena.cells ++ [.ofRoot root]) arena.top tree places :=
    hholds.frame fun i hi => List.getElem?_append_left (hplaces i hi)
  have hfresh : arena.cells.length ∉ places := fun hmem => Nat.lt_irrefl _ (hplaces _ hmem)
  have hnodup : (arena.cells.length :: places).Nodup :=
    List.nodup_cons.mpr ⟨hfresh, hperm.nodup_iff.mpr List.nodup_range⟩
  exact ⟨places, hholds, hperm, hholds'.route (getElem?_append_ofRoot ..) hnodup hnew hdepth⟩

theorem Represents.insertAt (h : arena.Represents tree) (hnew : root ∉ tree.roots) :
    let new := arena.cells.length
    let result := insertAt new new arena.top (arena.cells ++ [.ofRoot root])
    Represents ⟨result.2, some result.1⟩ (grow root tree) ∧
      result.2.map Cell.entry = arena.cells.map Cell.entry ++ [⟨root, []⟩] := by
  intro new result
  obtain ⟨places, -, hperm, hroute⟩ := h.route hnew
  obtain ⟨places', hperm', hlinked⟩ := hroute.relinked (getElem?_append_ofRoot ..)
  have hentries : result.2.map Cell.entry = arena.cells.map Cell.entry ++ [⟨root, []⟩] := by
    rw [hlinked.entries, List.map_append]
    rfl
  refine ⟨⟨places', hlinked.holds, ?_⟩, hentries⟩
  have hlength : result.2.length = new + 1 := by
    simpa using congrArg List.length hentries
  rw [hlength, List.range_succ]
  exact (hperm'.trans (hperm.cons new)).trans (List.perm_append_singleton new _).symm

/-- An insertion into an arena is an insertion into its tree. The cell of a new root comes after all
others, which keep their entries; for a root that is there already nothing changes. -/
theorem Represents.insert (h : arena.Represents tree) (hordered : tree.Ordered) (root : Root) :
    (arena.insert root).1 = (tree.insert root).1 ∧
      (arena.insert root).2.Represents (tree.insert root).2 ∧
      if root ∈ tree.roots then (arena.insert root).2 = arena
      else (arena.insert root).2.cells.map Cell.entry =
        arena.cells.map Cell.entry ++ [⟨root, []⟩] := by
  rw [insert_eq hordered, Arena.insert]
  by_cases hmem : root ∈ tree.roots
  · cases hplace : arena.place? root.text with
    | none => exact absurd hmem ((h.place?_text_eq_none_iff hordered).mp hplace)
    | some place =>
        rw [if_pos hmem, if_pos hmem]
        exact ⟨rfl, h, rfl⟩
  · rw [(h.place?_text_eq_none_iff hordered).mpr hmem, if_neg hmem, if_neg hmem]
    exact ⟨rfl, h.insertAt hmem⟩

end Arena

end Triliteral
