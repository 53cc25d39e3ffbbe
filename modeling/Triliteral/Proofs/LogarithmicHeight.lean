import Mathlib.Analysis.SpecialFunctions.Log.Base
import Mathlib.Data.Fintype.Prod
import Triliteral.Proofs.TreeFrames
import Triliteral.Proofs.TreeHeights

/-!
The height of a tree of roots is logarithmic in the number of its nodes. The bound that balance
gives is exact, as every balanced tree is reached by insertions, and a look-up meets at most one
node at each level.
-/

namespace Triliteral

theorem Root.length_le_of_nodup {roots : List Root} (h : roots.Nodup) :
    roots.length ≤ Char.numCodePoints * (Char.numCodePoints * Char.numCodePoints) := by
  let code : Root → Fin Char.numCodePoints × Fin Char.numCodePoints × Fin Char.numCodePoints :=
    fun root => (root.first.ordinal, root.second.ordinal, root.third.ordinal)
  have hcode : Function.Injective code := by
    intro a b heq
    simp only [code, Prod.mk.injEq] at heq
    obtain ⟨hfirst, hsecond, hthird⟩ := heq
    have hchar : Function.Injective Char.ordinal :=
      Function.LeftInverse.injective fun c => Char.ofOrdinal_ordinal
    cases a
    cases b
    simp only [Root.mk.injEq]
    exact ⟨hchar hfirst, hchar hsecond, hchar hthird⟩
  simpa using (h.map hcode).length_le_card

namespace RootTree

variable {tree near near' far : RootTree} {root : Root} {entry : RootEntry} {height : Nat}
  {side : Side} {text : String}

/-! ### Reaching balanced trees -/

theorem grow_joinToward (hturn : root.side? entry.root = some side) (hgrow : grow root near = near')
    (hnear : near.Balanced) (hbalanced : (toward side near' entry height far).Balanced) :
    grow root (joinToward side near entry far) = toward side near' entry height far := by
  obtain ⟨hnear', hfar, hle, hge, rfl⟩ := balanced_toward_iff.mp hbalanced
  rw [joinToward_eq hnear hfar, grow_toward hturn, hgrow,
    rebalance_joinToward_of_level hnear' hfar hle hge, joinToward_eq hnear' hfar]

theorem bare_toward :
    (toward side near entry height far).bare =
      toward side near.bare ⟨entry.root, []⟩ height far.bare := by
  cases side <;> rfl

/-- A tree comes from a balanced one in order, without histories, by adding a root that is new. -/
structure GrowsFrom (tree : RootTree) (root : Root) (smaller : RootTree) : Prop where
  balanced : smaller.Balanced
  ordered : smaller.Ordered
  bare_eq : smaller.bare = smaller
  new : root ∉ smaller.roots
  grow_eq : grow root smaller = tree

theorem GrowsFrom.joinToward {smaller : RootTree} (h : near.GrowsFrom root smaller)
    (hbalanced : (toward side near entry height far).Balanced)
    (hordered : (toward side near entry height far).Ordered)
    (hle : far.trueHeight ≤ near.trueHeight) (hentry : (⟨entry.root, []⟩ : RootEntry) = entry)
    (hbare : far.bare = far) :
    (toward side near entry height far).GrowsFrom root (joinToward side smaller entry far) := by
  obtain ⟨-, hfar, hnearLe, hfarLe, -⟩ := balanced_toward_iff.mp hbalanced
  obtain ⟨-, hfarOrdered, hnearSide, hfarSide⟩ := ordered_toward_iff.mp hordered
  have hroots : ∀ other, other ∈ near.roots ↔ other = root ∨ other ∈ smaller.roots :=
    fun other => h.grow_eq ▸ mem_roots_grow h.ordered h.new
  have hturn := hnearSide root ((hroots root).mpr (.inl rfl))
  have hgrown : near.trueHeight = smaller.trueHeight ∨
      near.trueHeight = smaller.trueHeight + 1 :=
    h.grow_eq ▸ (grown_grow root h.balanced).height.imp_right And.left
  refine ⟨?_, ?_, ?_, ?_, grow_joinToward hturn h.grow_eq h.balanced hbalanced⟩
  · rw [joinToward_eq h.balanced hfar, balanced_toward_iff]
    exact ⟨h.balanced, hfar, by omega, by omega, rfl⟩
  · rw [joinToward_eq h.balanced hfar, ordered_toward_iff]
    exact ⟨h.ordered, hfarOrdered,
      fun other hother => hnearSide other ((hroots other).mpr (.inr hother)), hfarSide⟩
  · rw [joinToward_eq h.balanced hfar, bare_toward, h.bare_eq, hentry, hbare]
  · rw [joinToward_eq h.balanced hfar, mem_roots_toward]
    rintro (rfl | hmem | hmem)
    · rw [Root.side?_eq_none_iff.mpr rfl] at hturn
      cases hturn
    · exact h.new hmem
    · have hother := hfarSide root hmem
      rw [hturn] at hother
      cases side <;> cases hother

/-- The last node of a balanced tree can be taken back: one at the end of a path that goes to the
higher side wherever there is one. -/
theorem Balanced.exists_growsFrom (hbalanced : tree.Balanced) (hordered : tree.Ordered)
    (hbare : tree.bare = tree) (hne : tree ≠ leaf) :
    ∃ root smaller, tree.GrowsFrom root smaller := by
  induction tree with
  | leaf => exact absurd rfl hne
  | node left entry height right ihLeft ihRight =>
      obtain ⟨side, near, far, heq, hle, ih⟩ :
          ∃ side near far, node left entry height right = toward side near entry height far ∧
            far.trueHeight ≤ near.trueHeight ∧
            (near.Balanced → near.Ordered → near.bare = near → near ≠ leaf →
              ∃ root smaller, near.GrowsFrom root smaller) := by
        rcases Nat.le_total right.trueHeight left.trueHeight with hle | hle
        · exact ⟨.left, left, right, rfl, hle, ihLeft⟩
        · exact ⟨.right, right, left, rfl, hle, ihRight⟩
      rw [heq] at hbalanced hordered hbare ⊢
      obtain ⟨hnear, hfar, -, -, hheight⟩ := balanced_toward_iff.mp hbalanced
      obtain ⟨hnearOrdered, -⟩ := ordered_toward_iff.mp hordered
      obtain ⟨hnearBare, hentry, hfarBare⟩ :
          near.bare = near ∧ (⟨entry.root, []⟩ : RootEntry) = entry ∧ far.bare = far := by
        rw [bare_toward] at hbare
        cases side <;> simp only [toward, node.injEq] at hbare <;> tauto
      by_cases hleaf : near = leaf
      · subst hleaf
        obtain rfl : far = leaf := eq_leaf_of_trueHeight (Nat.le_zero.mp hle)
        refine ⟨entry.root, leaf, balanced_leaf, ordered_leaf, rfl, List.not_mem_nil, ?_⟩
        rw [grow, hentry, hheight]
        cases side <;> rfl
      · obtain ⟨root, smaller, hgrows⟩ := ih hnear hnearOrdered hnearBare hleaf
        exact ⟨root, _, hgrows.joinToward hbalanced hordered hle hentry hfarBare⟩

/-- Every balanced tree without histories is reached by insertions. -/
theorem Balanced.exists_insertions (hbalanced : tree.Balanced) (hordered : tree.Ordered)
    (hbare : tree.bare = tree) :
    ∃ inserted : List Root, inserted.Perm tree.roots ∧
      leaf.applyAll (inserted.map Edit.insert) = tree := by
  induction hsize : tree.size generalizing tree with
  | zero =>
      cases tree with
      | leaf => exact ⟨[], .refl _, rfl⟩
      | node left entry height right => cases hsize
  | succ size ih =>
      have hne : tree ≠ leaf := by
        rintro rfl
        cases hsize
      obtain ⟨root, smaller, hsmaller, hsmallerOrdered, hsmallerBare, hnew, rfl⟩ :=
        hbalanced.exists_growsFrom hordered hbare hne
      have hinsert : (smaller.insert root).2 = grow root smaller := by
        rw [insert_eq hsmallerOrdered, if_neg hnew]
      have hsmallerSize : smaller.size = size := by
        have hgrown := size_insert hsmallerOrdered root
        rw [hinsert, if_neg hnew] at hgrown
        omega
      obtain ⟨inserted, hperm, happly⟩ :=
        ih hsmaller hsmallerOrdered hsmallerBare hsmallerSize
      have hroots : (grow root smaller).roots.Perm (root :: smaller.roots) := by
        rw [roots_eq_map_entries, entries_grow hsmallerOrdered hnew]
        exact (List.perm_orderedInsert _ _ _).map RootEntry.root
      refine ⟨inserted ++ [root], ?_, ?_⟩
      · exact ((List.perm_append_singleton root inserted).trans (hperm.cons root)).trans hroots.symm
      · rw [List.map_append, applyAll, List.foldl_append]
        change (leaf.applyAll (inserted.map Edit.insert)).applyAll [.insert root] = _
        rw [happly]
        exact hinsert

theorem exists_split_of_lt {α : Type} {items : List α} {place : Nat} (h : place < items.length) :
    ∃ before item after, items = before ++ item :: after ∧ before.length = place :=
  ⟨items.take place, items[place], items.drop (place + 1),
    by rw [List.cons_getElem_drop_succ, List.take_append_drop], List.length_take_of_le h.le⟩

/-- A balanced tree with as few nodes as its height allows. -/
theorem exists_balanced_of_fib (height : Nat) {roots : List Root} (hsorted : roots.Pairwise (· < ·))
    (hlength : roots.length + 1 = Nat.fib (height + 2)) :
    ∃ tree : RootTree, tree.Balanced ∧ tree.trueHeight = height ∧ tree.roots = roots ∧
      tree.bare = tree := by
  induction height using Nat.twoStepInduction generalizing roots with
  | zero =>
      obtain rfl := List.length_eq_zero_iff.mp (Nat.succ_inj.mp hlength)
      exact ⟨leaf, balanced_leaf, rfl, rfl, rfl⟩
  | one =>
      obtain ⟨root, rfl⟩ := List.length_eq_one_iff.mp (Nat.succ_inj.mp hlength)
      exact ⟨grow root leaf, (grown_grow root balanced_leaf).balanced, rfl, rfl, rfl⟩
  | more height ihLow ihHigh =>
      have hlow : 0 < Nat.fib (height + 2) := Nat.fib_pos.mpr (Nat.succ_pos _)
      rw [Nat.fib_add_two] at hlength
      have hhigh : 0 < Nat.fib (height + 2 + 1) := Nat.fib_pos.mpr (Nat.succ_pos _)
      obtain ⟨left, root, right, rfl, hleft⟩ :
          ∃ left root right, roots = left ++ root :: right ∧
            left.length = Nat.fib (height + 2) - 1 :=
        exists_split_of_lt (by omega)
      have hright : right.length + 1 = Nat.fib (height + 1 + 2) := by
        rw [List.length_append, List.length_cons] at hlength
        have hcomm : height + 2 + 1 = height + 1 + 2 := rfl
        rw [hcomm] at hlength
        omega
      obtain ⟨hleftSorted, hrest, -⟩ := List.pairwise_append.mp hsorted
      obtain ⟨low, hlowBalanced, hlowHeight, rfl, hlowBare⟩ := ihLow hleftSorted (by omega)
      obtain ⟨high, hhighBalanced, hhighHeight, rfl, hhighBare⟩ :=
        ihHigh (List.pairwise_cons.mp hrest).2 hright
      refine ⟨join low ⟨root, []⟩ high,
        balanced_join hlowBalanced hhighBalanced (by omega) (by omega) _, ?_, ?_, ?_⟩
      · rw [trueHeight_join]
        omega
      · exact roots_node ..
      · rw [bare_join, hlowBare, hhighBare]

/-! ### Logarithms -/

theorem two_pow_lt_of_fib_le : ∀ height < 90,
    2 ^ (25 * height) < (Nat.fib (height + 2) + 1) ^ 36 := by
  decide +kernel

/-- Beyond some height the bound would fail; there are too few roots for that. -/
theorem Balanced.height_lt_logb (hbalanced : tree.Balanced) (hordered : tree.Ordered) :
    (tree.height : ℝ) < 1.44 * Real.logb 2 (tree.size + 2) := by
  have hfib := hbalanced.fib_le_size
  rw [← hbalanced.height_eq] at hfib
  have hheight : tree.height < 90 := by
    by_contra hhigh
    have hfew := Root.length_le_of_nodup (nodup_roots hordered)
    rw [← size_eq_length_roots] at hfew
    have hmany : Nat.fib 92 ≤ Nat.fib (tree.height + 2) := Nat.fib_mono (by omega)
    have hbound : Char.numCodePoints * (Char.numCodePoints * Char.numCodePoints) + 1 <
        Nat.fib 92 := by
      decide +kernel
    omega
  have hpow : 2 ^ (25 * tree.height) < (tree.size + 2) ^ 36 :=
    (two_pow_lt_of_fib_le _ hheight).trans_le (Nat.pow_le_pow_left (by omega) 36)
  have hreal : (2 : ℝ) ^ (25 * tree.height) < ((tree.size : ℝ) + 2) ^ 36 := by
    exact_mod_cast hpow
  have hlog := Real.logb_lt_logb one_lt_two (by positivity) hreal
  rw [Real.logb_pow, Real.logb_pow, Real.logb_self_eq_one one_lt_two] at hlog
  push_cast at hlog
  linarith

/-! ### Paths -/

/-- The nodes with whose roots a look-up compares a text, from the top down. -/
def path : RootTree → String → List Node
  | leaf, _ => []
  | node left entry height right, text =>
    ⟨entry, height⟩ ::
      if text < entry.root.text then left.path text
      else if entry.root.text < text then right.path text
      else []

theorem findText?_eq_getLast? (tree : RootTree) (text : String) :
    tree.findText? text =
      (tree.path text).getLast?.filter fun node => node.entry.root.text = text := by
  have hlast : ∀ (node : Node) (below : List Node), node.entry.root.text ≠ text →
      (node :: below).getLast?.filter (fun node => node.entry.root.text = text) =
        below.getLast?.filter fun node => node.entry.root.text = text := by
    intro node below hne
    cases below with
    | nil => simp [hne]
    | cons next below => rw [List.getLast?_cons_cons]
  induction tree with
  | leaf => rfl
  | node left entry height right ihLeft ihRight =>
      rw [findText?, path]
      split
      · next hlt => rw [hlast ⟨entry, height⟩ _ (String.ne_of_lt hlt).symm, ihLeft]
      · split
        · next hgt => rw [hlast ⟨entry, height⟩ _ (String.ne_of_lt hgt), ihRight]
        · next hle hge =>
          obtain rfl := string_eq_of_not_lt hle hge
          simp [Option.filter]

theorem length_path_le (tree : RootTree) (text : String) :
    (tree.path text).length ≤ tree.trueHeight := by
  induction tree with
  | leaf => exact Nat.le_refl 0
  | node left entry height right ihLeft ihRight =>
      rw [path, List.length_cons, trueHeight]
      split
      · omega
      · split
        · omega
        · rw [List.length_nil]
          omega

end RootTree

namespace Arena

open RootTree

/-- The places of the cells with whose roots a look-up compares a text, from the top down, as far as
it may go in a number of steps. -/
def pathAt (cells : List Cell) (text : String) : Nat → Option Nat → List Nat
  | steps + 1, some place =>
    match cells[place]? with
    | none => []
    | some cell =>
      place ::
        if text < cell.entry.root.text then pathAt cells text steps cell.left
        else if cell.entry.root.text < text then pathAt cells text steps cell.right
        else []
  | _, _ => []

theorem Holds.pathAt_eq {cells : List Cell} {top : Option Nat} {tree : RootTree} {places : List Nat}
    (h : Holds cells top tree places) (text : String) (steps : Nat) :
    (pathAt cells text steps top).map (fun place => cells[place]?.map Cell.node) =
      ((tree.path text).take steps).map some := by
  induction h generalizing steps with
  | leaf => cases steps <;> rfl
  | node hcell hleft hright ihLeft ihRight =>
      cases steps with
      | zero => rfl
      | succ steps =>
          rw [pathAt, hcell, path]
          simp only [List.map_cons, List.take_succ_cons, hcell, Option.map_some]
          refine congrArg₂ List.cons rfl ?_
          split
          · exact ihLeft steps
          · split
            · exact ihRight steps
            · rw [List.take_nil]
              rfl

theorem Represents.length_cells {arena : Arena} {tree : RootTree} (h : arena.Represents tree) :
    arena.cells.length = tree.size := by
  obtain ⟨places, hholds, hperm⟩ := h
  rw [← hholds.length_eq, hperm.length_eq, List.length_range]

end Arena

namespace RootTree

theorem Balanced.applyAll {tree : RootTree} (hbalanced : tree.Balanced) (edits : List Edit) :
    (tree.applyAll edits).Balanced := by
  induction edits generalizing tree with
  | nil => exact hbalanced
  | cons edit edits ih =>
      cases edit with
      | insert root => exact ih (hbalanced.insert root)
      | record root derivation => exact ih (hbalanced.record root derivation)

/-- The height of a tree is logarithmic in its size. After any insertions and records the nodes
are at least as many as a Fibonacci number tells for the height, which is less than 1.44 times the
binary logarithm of their number. A look-up, whether it succeeds or not, compares its text with the
roots on one path, and no path is longer than the height, in the tree as in the arena that
represents it, however many steps it may take there. The bound cannot be improved: as many roots as
it asks for can be inserted in an order that makes the tree as high. -/
theorem height_logarithmic :
    (∀ edits : List Edit,
      let tree := leaf.applyAll edits
      let arena := Arena.empty.applyAll edits
      (arena.Represents tree ∧ arena.cells.length = tree.size ∧
        Arena.heightAt arena.cells arena.top = tree.height) ∧
      Nat.fib (tree.height + 2) ≤ tree.size + 1 ∧
      (tree.height : ℝ) < 1.44 * Real.logb 2 (tree.size + 2) ∧
      ∀ text,
        tree.findText? text =
          ((tree.path text).getLast?.filter fun node => node.entry.root.text = text) ∧
        (tree.path text).length ≤ tree.height ∧
        ∀ steps, (Arena.pathAt arena.cells text steps arena.top).length ≤ tree.height) ∧
    ∀ (height : Nat) (roots : List Root), roots.Pairwise (· < ·) →
      roots.length + 1 = Nat.fib (height + 2) →
      ∃ inserted : List Root, inserted.Perm roots ∧
        (leaf.applyAll (inserted.map Edit.insert)).height = height := by
  constructor
  · intro edits tree arena
    have hordered : tree.Ordered := ordered_leaf.applyAll edits
    have hbalanced : tree.Balanced := balanced_leaf.applyAll edits
    have harena : arena.Represents tree := Arena.represents_empty.applyAll ordered_leaf edits
    have hsize := harena.length_cells
    obtain ⟨places, hholds, -⟩ := id harena
    have hfib := hbalanced.fib_le_size
    rw [← hbalanced.height_eq] at hfib
    refine ⟨⟨harena, hsize, hholds.heightAt_eq⟩, hfib, hbalanced.height_lt_logb hordered,
      fun text => ?_⟩
    have hpath : (tree.path text).length ≤ tree.height :=
      hbalanced.height_eq ▸ tree.length_path_le text
    refine ⟨tree.findText?_eq_getLast? text, hpath, fun steps => ?_⟩
    have hlength := congrArg List.length (hholds.pathAt_eq text steps)
    simp only [List.length_map, List.length_take] at hlength
    omega
  · intro height roots hsorted hlength
    obtain ⟨tree, hbalanced, rfl, rfl, hbare⟩ := exists_balanced_of_fib height hsorted hlength
    obtain ⟨inserted, hperm, happly⟩ := hbalanced.exists_insertions hsorted hbare
    exact ⟨inserted, hperm, happly ▸ hbalanced.height_eq⟩

/-- Seven roots, for which there would be room in a tree of height three. -/
def seven : List Root :=
  ['ب', 'ت', 'ث', 'ج', 'ح', 'خ', 'د'].map fun c => ⟨c, 'ر', 'س'⟩

theorem height_logarithmic_seven :
    seven.Pairwise (· < ·) ∧ seven.length + 1 = Nat.fib 6 ∧
      ∃ inserted : List Root, inserted.Perm seven ∧
        (leaf.applyAll (inserted.map Edit.insert)).height = 4 := by
  have hsorted : seven.Pairwise (· < ·) := by decide
  have hlength : seven.length + 1 = Nat.fib 6 := by decide
  exact ⟨hsorted, hlength, height_logarithmic.2 4 seven hsorted hlength⟩

end RootTree

end Triliteral
