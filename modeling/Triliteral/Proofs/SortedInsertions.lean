import Mathlib.Data.Nat.Log
import Triliteral.Proofs.BareEngines
import Triliteral.Proofs.StoredRoots
import Triliteral.Proofs.TreeHeights

/-!
Trees that are filled from one side. Insertions in order always go to the same side, where they
carry perfect trees over to the other one, so that the tree is never higher than it has to be. An
engine that is restored from a snapshot has such a tree.
-/

namespace Triliteral

namespace RootTree

variable {tree near far : RootTree} {root : Root} {entry : RootEntry} {height : Nat} {side : Side}

/-! ### Growing on one side -/

/-- Along one side every node has a perfect tree on its other side, which is as high as the tree on
this side or lower by one. -/
def Slanted (side : Side) : RootTree → Prop
  | leaf => True
  | node left _ _ right =>
    match side with
    | .left => left.Slanted side ∧ right.Perfect ∧
        right.trueHeight ≤ left.trueHeight ∧ left.trueHeight ≤ right.trueHeight + 1
    | .right => right.Slanted side ∧ left.Perfect ∧
        left.trueHeight ≤ right.trueHeight ∧ right.trueHeight ≤ left.trueHeight + 1

theorem slanted_leaf (side : Side) : leaf.Slanted side := by
  cases side <;> trivial

theorem slanted_toward_iff :
    (toward side near entry height far).Slanted side ↔
      near.Slanted side ∧ far.Perfect ∧
        far.trueHeight ≤ near.trueHeight ∧ near.trueHeight ≤ far.trueHeight + 1 := by
  cases side <;> exact Iff.rfl

theorem Slanted.side_eq {turn : Side} (h : (toward turn near entry height far).Slanted side)
    (hlevel : near.trueHeight = far.trueHeight + 1) : turn = side := by
  cases side with
  | left =>
      cases turn with
      | left => rfl
      | right =>
          obtain ⟨-, -, hle, -⟩ := h
          omega
  | right =>
      cases turn with
      | left =>
          obtain ⟨-, -, hle, -⟩ := h
          omega
      | right => rfl

theorem exists_joinToward_eq (side : Side) (near : RootTree) (entry : RootEntry) (far : RootTree) :
    ∃ height, joinToward side near entry far = toward side near entry height far := by
  cases side <;> exact ⟨_, rfl⟩

/-- A single rotation makes a perfect tree of the other side and what the child had there. -/
theorem slanted_relieve (hnear : near.Slanted side) (hhigh : near.HighToward root)
    (hfar : far.Perfect) (hheight : near.trueHeight = far.trueHeight + 2) (entry : RootEntry)
    (height : Nat) : (relieve root side near entry height far).Slanted side := by
  obtain ⟨turn, outer, inner, child, i, rfl, hturn, hlevel⟩ := hhigh.exists_side (by omega)
  obtain rfl := hnear.side_eq hlevel
  obtain ⟨houter, hinner, -, -⟩ := slanted_toward_iff.mp hnear
  rw [trueHeight_toward] at hheight
  have hrelieve : relieve root turn (toward turn outer child i inner) entry height far =
      joinToward turn outer child (joinToward turn inner entry far) := by
    rw [← rotate_toward_toward (i := i) (j := height)]
    cases turn <;> simp only [toward, relieve, hturn, if_true]
  obtain ⟨k, hlower⟩ := exists_joinToward_eq turn inner entry far
  obtain ⟨k', hupper⟩ := exists_joinToward_eq turn outer child (toward turn inner entry k far)
  have hperfect : (toward turn inner entry k far).Perfect :=
    perfect_toward_iff.mpr ⟨hinner, hfar, by omega⟩
  rw [hrelieve, hlower, hupper, slanted_toward_iff, trueHeight_toward]
  exact ⟨houter, hperfect, by omega, by omega⟩

theorem Slanted.grow (hslanted : tree.Slanted side) (hbalanced : tree.Balanced)
    (hside : ∀ other ∈ tree.roots, root.side? other = some side) :
    (grow root tree).Slanted side := by
  induction tree with
  | leaf => cases side <;> exact ⟨trivial, trivial, Nat.le_refl 0, Nat.zero_le 1⟩
  | node left entry height right ihLeft ihRight =>
      obtain ⟨near, far, heq, ih⟩ :
          ∃ near far, node left entry height right = toward side near entry height far ∧
            (near.Slanted side → near.Balanced →
              (∀ other ∈ near.roots, root.side? other = some side) →
              (RootTree.grow root near).Slanted side) := by
        cases side with
        | left => exact ⟨left, right, rfl, ihLeft⟩
        | right => exact ⟨right, left, rfl, ihRight⟩
      rw [heq] at hslanted hbalanced hside ⊢
      obtain ⟨hnearSlanted, hfarPerfect, hle, hge⟩ := slanted_toward_iff.mp hslanted
      obtain ⟨hnear, hfar, -, -, -⟩ := balanced_toward_iff.mp hbalanced
      have hgrowSlanted := ih hnearSlanted hnear fun other hother =>
        hside other (mem_roots_toward.mpr (.inr (.inl hother)))
      obtain ⟨hgrown, hheight⟩ := grown_grow root hnear
      rw [grow_toward (hside entry.root (mem_roots_toward.mpr (.inl rfl)))]
      by_cases hhigh : (RootTree.grow root near).trueHeight = far.trueHeight + 2
      · have hup : (RootTree.grow root near).HighToward root := by
          rcases hheight with hsame | ⟨-, hup⟩
          · omega
          · exact hup
        rw [rebalance_joinToward_of_high hgrown hfar hhigh]
        exact slanted_relieve hgrowSlanted hup hfarPerfect hhigh entry _
      · rw [rebalance_joinToward_of_level hgrown hfar (by omega) (by omega),
          joinToward_eq hgrown hfar, slanted_toward_iff]
        exact ⟨hgrowSlanted, hfarPerfect, by omega, by omega⟩

/-- Insertions that all go to one side of what is there slant the tree to that side. -/
theorem Slanted.insertAll (hslanted : tree.Slanted side) (hbalanced : tree.Balanced)
    (hordered : tree.Ordered) {inserted : List Root}
    (hside : ∀ root ∈ inserted, ∀ other ∈ tree.roots, root.side? other = some side)
    (hsorted : inserted.Pairwise fun a b => b.side? a = some side) :
    (tree.insertAll inserted).2.Slanted side ∧
      (tree.insertAll inserted).2.size = tree.size + inserted.length := by
  induction inserted generalizing tree with
  | nil => exact ⟨hslanted, rfl⟩
  | cons root rest ih =>
      obtain ⟨hrest, hsorted⟩ := List.pairwise_cons.mp hsorted
      have hnew : root ∉ tree.roots := by
        intro hmem
        have hturn := hside root List.mem_cons_self root hmem
        rw [Root.side?_eq_none_iff.mpr rfl] at hturn
        cases hturn
      have hslanted' : (tree.insert root).2.Slanted side := by
        rw [insert_eq hordered, if_neg hnew]
        exact hslanted.grow hbalanced (hside root List.mem_cons_self)
      have hside' : ∀ later ∈ rest, ∀ other ∈ (tree.insert root).2.roots,
          later.side? other = some side := by
        intro later hlater other hother
        rcases (mem_roots_insert hordered).mp hother with rfl | hold
        · exact hrest later hlater
        · exact hside later (List.mem_cons_of_mem root hlater) other hold
      obtain ⟨hlast, hsize⟩ :=
        ih hslanted' (hbalanced.insert root) (hordered.insert root) hside' hsorted
      refine ⟨hlast, ?_⟩
      rw [insertAll_cons, hsize, size_insert hordered, if_neg hnew, List.length_cons]
      omega

/-! ### Least height -/

theorem Slanted.two_pow_trueHeight_le (hslanted : tree.Slanted side) (hne : tree ≠ leaf) :
    2 ^ tree.trueHeight ≤ 2 * tree.size := by
  induction tree with
  | leaf => exact absurd rfl hne
  | node left entry height right ihLeft ihRight =>
      obtain ⟨near, far, heq, ih⟩ :
          ∃ near far, node left entry height right = toward side near entry height far ∧
            (near.Slanted side → near ≠ leaf → 2 ^ near.trueHeight ≤ 2 * near.size) := by
        cases side with
        | left => exact ⟨left, right, rfl, ihLeft⟩
        | right => exact ⟨right, left, rfl, ihRight⟩
      rw [heq] at hslanted ⊢
      obtain ⟨hnear, hfar, hle, hge⟩ := slanted_toward_iff.mp hslanted
      rw [trueHeight_toward, size_toward, Nat.max_eq_left hle, Nat.pow_add]
      have hfarSize := perfect_iff.mp hfar
      have hlevel : 2 ^ near.trueHeight ≤ 2 * 2 ^ far.trueHeight := by
        rw [← Nat.pow_succ']
        exact Nat.pow_le_pow_right Nat.two_pos hge
      by_cases hleaf : near = leaf
      · subst hleaf
        rw [trueHeight]
        omega
      · have hnearSize := ih hnear hleaf
        omega

theorem Slanted.trueHeight_eq_log (hslanted : tree.Slanted side) (hne : tree ≠ leaf) :
    tree.trueHeight = Nat.log 2 tree.size + 1 := by
  have hroom := tree.size_lt_two_pow_trueHeight
  have hfull := hslanted.two_pow_trueHeight_le hne
  have hpos : tree.trueHeight ≠ 0 := fun hzero => hne (eq_leaf_of_trueHeight hzero)
  obtain ⟨level, hlevel⟩ := Nat.exists_eq_succ_of_ne_zero hpos
  rw [hlevel] at hroom hfull ⊢
  rw [Nat.pow_succ'] at hfull
  rw [Nat.log_eq_of_pow_le_of_lt_pow (by omega) hroom]

theorem Slanted.perfect_of_full (hslanted : tree.Slanted side) (hne : tree ≠ leaf) {level : Nat}
    (hsize : tree.size + 1 = 2 ^ level) : tree.Perfect ∧ tree.trueHeight = level := by
  have hroom := tree.size_lt_two_pow_trueHeight
  have hfull := hslanted.two_pow_trueHeight_le hne
  have hle : level ≤ tree.trueHeight := (Nat.pow_le_pow_iff_right Nat.one_lt_two).mp (by omega)
  have hlt : tree.trueHeight < level + 1 :=
    (Nat.pow_lt_pow_iff_right Nat.one_lt_two).mp (by rw [Nat.pow_succ]; omega)
  obtain rfl : tree.trueHeight = level := by omega
  exact ⟨perfect_iff.mpr hsize, rfl⟩

/-- No tree of this size is lower than one that is slanted. -/
theorem Slanted.trueHeight_le (hslanted : tree.Slanted side) {other : RootTree}
    (hsize : other.size = tree.size) : tree.trueHeight ≤ other.trueHeight := by
  by_cases hleaf : tree = leaf
  · rw [hleaf]
    exact Nat.zero_le _
  · have hroom := other.size_lt_two_pow_trueHeight
    have hfull := hslanted.two_pow_trueHeight_le hleaf
    by_contra hlower
    have hpow : 2 * 2 ^ other.trueHeight ≤ 2 ^ tree.trueHeight := by
      rw [← Nat.pow_succ']
      exact Nat.pow_le_pow_right Nat.two_pos (by omega)
    omega

/-! ### Trees with histories -/

theorem trueHeight_bare (tree : RootTree) : tree.bare.trueHeight = tree.trueHeight := by
  induction tree with
  | leaf => rfl
  | node left entry height right ihLeft ihRight =>
      rw [bare_node, trueHeight, trueHeight, ihLeft, ihRight]

end RootTree

namespace Engine

open RootTree

/-- But for the histories, restoring entries is inserting their roots. -/
theorem bare_restoreRoots (entries : List RootEntry) :
    (restoreRoots (entries.map RootEntry.toRecord)).tree.bare =
      (leaf.insertAll (entries.map RootEntry.root)).2 := by
  have hstep : ∀ (restored : RestoredRoots) (entry : RootEntry),
      (restoreRoot restored entry.toRecord).tree.bare =
        (restored.tree.bare.insert entry.root).2 := by
    intro restored entry
    rw [insert_bare, restoreRoot, RootEntry.toRecord, Root.ofText?_text]
    by_cases hold : restored.tree.contains entry.root = true
    · simp only [RootTree.insert, if_pos hold]
    · simp only [RootTree.insert, if_neg hold]
      exact bare_recordAll entry.root entry.derivations _
  have hfold : ∀ restored : RestoredRoots,
      ((entries.map RootEntry.toRecord).foldl restoreRoot restored).tree.bare =
        (restored.tree.bare.insertAll (entries.map RootEntry.root)).2 := by
    induction entries with
    | nil => exact fun _ => rfl
    | cons entry entries ih =>
        intro restored
        rw [List.map_cons, List.foldl_cons, ih, List.map_cons, insertAll_cons, hstep]
  exact hfold ⟨.leaf, [], []⟩

end Engine

namespace RootTree

theorem slanted_insertAll {inserted : List Root}
    (hsorted : inserted.Pairwise fun a b => b.side? a = some side) :
    (leaf.insertAll inserted).2.Slanted side ∧
      (leaf.insertAll inserted).2.size = inserted.length := by
  have hside : ∀ root ∈ inserted, ∀ other ∈ leaf.roots, root.side? other = some side :=
    fun _ _ _ hother => absurd hother List.not_mem_nil
  obtain ⟨hslanted, hsize⟩ :=
    (slanted_leaf side).insertAll balanced_leaf ordered_leaf hside hsorted
  exact ⟨hslanted, hsize.trans (Nat.zero_add _)⟩

/-- A snapshot lists roots in ascending order, so that restoring it inserts them in this order. -/
theorem slanted_restore {engine : Engine} (hengine : engine.WellFormed) (q : Placeholders) :
    (Engine.restore q engine.snapshot).1.tree.bare.Slanted .right ∧
      (Engine.restore q engine.snapshot).1.tree.bare.size = engine.tree.size := by
  have hbare : (Engine.restore q engine.snapshot).1.tree.bare =
      (leaf.insertAll engine.tree.roots).2 :=
    Engine.bare_restoreRoots engine.tree.entries
  rw [hbare, size_eq_length_roots engine.tree]
  exact slanted_insertAll (hengine.ordered.imp Root.side?_eq_right_iff.mpr)

/-- Insertions in order give a tree of the least height. Whether the roots come in strictly
ascending or in strictly descending order, the height is one more than the binary logarithm of
their number, and if that is one less than a power of two, the tree is perfect. The tree of an
engine that is restored from the snapshot of another one, under whatever placeholders, has as many
nodes as the tree of that one, and no tree of this size is lower. -/
theorem sorted_insertions_least_height :
    (∀ inserted : List Root, inserted ≠ [] →
      inserted.Pairwise (· < ·) ∨ inserted.Pairwise (· > ·) →
      let tree := (leaf.insertAll inserted).2
      tree.size = inserted.length ∧ tree.height = Nat.log 2 inserted.length + 1 ∧
        ∀ level, inserted.length + 1 = 2 ^ level → tree.Perfect ∧ tree.height = level) ∧
    ∀ {p : Placeholders} {start : Engine}, Engine.Initial p start →
      ∀ (steps : List (Occasion × Request)) (q : Placeholders),
        let engine := (start.run steps).2
        let restored := (Engine.restore q engine.snapshot).1
        restored.rootCount = engine.rootCount ∧
          (engine.rootCount ≠ 0 → restored.tree.height = Nat.log 2 engine.rootCount + 1) ∧
          ∀ other : RootTree, other.size = engine.rootCount →
            restored.tree.height ≤ other.trueHeight := by
  constructor
  · intro inserted hne horder tree
    obtain ⟨side, hslanted, hsize⟩ :
        ∃ side, tree.Slanted side ∧ tree.size = inserted.length := by
      rcases horder with hascending | hdescending
      · exact ⟨.right, slanted_insertAll (hascending.imp Root.side?_eq_right_iff.mpr)⟩
      · exact ⟨.left, slanted_insertAll (hdescending.imp Root.side?_eq_left_iff.mpr)⟩
    have hleaf : tree ≠ leaf := by
      intro hleaf
      rw [hleaf] at hsize
      exact hne (List.length_eq_zero_iff.mp hsize.symm)
    have hbalanced : tree.Balanced := balanced_leaf.insertAll inserted
    rw [← hsize, hbalanced.height_eq]
    exact ⟨rfl, hslanted.trueHeight_eq_log hleaf, fun level => hslanted.perfect_of_full hleaf⟩
  · intro p start hstart steps q engine restored
    have hengine : engine.WellFormed := hstart.faithful.wellFormed.run steps
    have hentries : restored.tree.entries = engine.tree.entries := hengine.entries_restore q
    have hbalanced : restored.tree.Balanced := Engine.balanced_restoreRoots _
    obtain ⟨hslanted, hsize⟩ := slanted_restore hengine q
    have hcount : restored.rootCount = engine.rootCount := by
      rw [Engine.rootCount, Engine.rootCount, size_eq_length_roots, size_eq_length_roots,
        roots_eq_map_entries, hentries, ← roots_eq_map_entries]
    rw [hbalanced.height_eq, ← trueHeight_bare]
    refine ⟨hcount, fun hne => ?_, fun other hother => ?_⟩
    · rw [Engine.rootCount, ← hsize] at hne ⊢
      exact hslanted.trueHeight_eq_log fun hleaf => hne (hleaf ▸ rfl)
    · exact hslanted.trueHeight_le (hother.trans hsize.symm)

def falling : List Root :=
  ['د', 'خ', 'ح', 'ج', 'ث', 'ت', 'ب'].map fun c => ⟨c, 'ر', 'س'⟩

/-- The same roots in an order that makes the tree as high as it can become. -/
def leveled : List (Occasion × Request) :=
  [(Occasion.ofEpoch 0, .loadRoots ["حرس", "ثرس", "خرس", "ترس", "جرس", "درس", "برس"])]

theorem sorted_insertions_least_height_seven :
    let tree := (leaf.insertAll falling).2
    let engine := ((Engine.withCatalog .standard).run leveled).2
    let restored := (Engine.restore .standard engine.snapshot).1
    falling.Pairwise (· > ·) ∧ tree.Perfect ∧ tree.height = 3 ∧
      engine.tree.height = 4 ∧ restored.tree.height = 3 ∧
      ∀ other : RootTree, other.size = 7 → restored.tree.height ≤ other.trueHeight := by
  intro tree engine restored
  have hsorted : falling.Pairwise (· > ·) := by decide
  have hcount : engine.rootCount = 7 := by decide +kernel
  obtain ⟨-, -, hperfect⟩ :=
    sorted_insertions_least_height.1 falling (by decide) (.inr hsorted)
  obtain ⟨-, hheight, hleast⟩ := sorted_insertions_least_height.2
    (.withCatalog : Engine.Initial .standard _) leveled .standard
  have hlog : Nat.log 2 engine.rootCount + 1 = 3 := by
    rw [hcount]
    decide +kernel
  exact ⟨hsorted, (hperfect 3 (by decide)).1, (hperfect 3 (by decide)).2, by decide +kernel,
    (hheight (by decide +kernel)).trans hlog, hcount ▸ hleast⟩

end RootTree

end Triliteral
