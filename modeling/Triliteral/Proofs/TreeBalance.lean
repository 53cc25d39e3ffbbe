import Triliteral.Proofs.TreeInsertions

/-!
Insertions keep a tree balanced. A tree that an insertion made higher is higher on the side of
the new root, which is why the rotations may be chosen by comparing roots.
-/

namespace Triliteral.RootTree

theorem balanced_leaf : leaf.Balanced := trivial

theorem Balanced.height_eq {tree : RootTree} (h : tree.Balanced) :
    tree.height = tree.trueHeight := by
  cases tree with
  | leaf => rfl
  | node left entry height right => exact h.2.2.2.2

/-! ### Checking the balance -/

/-- The checking pass succeeds exactly on balanced trees, whatever heights are kept. -/
theorem checkedHeight?_eq_some_iff {tree : RootTree} {found : Nat} :
    tree.checkedHeight? = some found ↔ tree.Balanced ∧ tree.trueHeight = found := by
  induction tree generalizing found with
  | leaf => simp [checkedHeight?, Balanced, trueHeight]
  | node left entry height right ihLeft ihRight =>
      simp only [checkedHeight?, Option.bind_eq_bind, Option.bind_eq_some_iff, ihLeft, ihRight,
        Option.ite_none_right_eq_some, Option.some.injEq, Balanced, trueHeight]
      constructor
      · rintro ⟨l, ⟨hleft, rfl⟩, r, ⟨hright, rfl⟩, ⟨hlr, hrl, hheight⟩, rfl⟩
        exact ⟨⟨hleft, hright, hlr, hrl, hheight⟩, hheight.symm⟩
      · rintro ⟨⟨hleft, hright, hlr, hrl, hheight⟩, rfl⟩
        exact ⟨_, ⟨hleft, rfl⟩, _, ⟨hright, rfl⟩, ⟨hlr, hrl, hheight⟩, hheight⟩

theorem isBalanced_iff {tree : RootTree} : tree.isBalanced = true ↔ tree.Balanced := by
  rw [isBalanced, Option.isSome_iff_exists]
  simp only [checkedHeight?_eq_some_iff, exists_and_left, exists_eq', and_true]

/-! ### Joining -/

@[simp] theorem trueHeight_join (left right : RootTree) (entry : RootEntry) :
    (join left entry right).trueHeight = 1 + max left.trueHeight right.trueHeight :=
  rfl

theorem balanced_join {left right : RootTree} (hleft : left.Balanced) (hright : right.Balanced)
    (hlr : left.trueHeight ≤ right.trueHeight + 1)
    (hrl : right.trueHeight ≤ left.trueHeight + 1) (entry : RootEntry) :
    (join left entry right).Balanced := by
  refine ⟨hleft, hright, hlr, hrl, ?_⟩
  rw [hleft.height_eq, hright.height_eq]

theorem balance_join {left right : RootTree} (hleft : left.Balanced) (hright : right.Balanced)
    (entry : RootEntry) :
    (join left entry right).balance = (left.trueHeight : Int) - (right.trueHeight : Int) := by
  rw [join, balance, hleft.height_eq, hright.height_eq]

/-! ### Rebalancing -/

/-- Holds of a tree that consists of one new node, or whose side on which `root` lies is
higher by one than the other side. -/
def HighToward (root : Root) : RootTree → Prop
  | leaf => False
  | node left entry _ right =>
    (left = leaf ∧ right = leaf) ∨
      (root < entry.root ∧ left.trueHeight = right.trueHeight + 1) ∨
      (entry.root < root ∧ right.trueHeight = left.trueHeight + 1)

theorem rebalance_of_level (root : Root) {tree : RootTree} (hle : tree.balance ≤ 1)
    (hge : -1 ≤ tree.balance) : rebalance root tree = tree := by
  cases tree with
  | leaf => rfl
  | node left entry height right =>
      simp only [rebalance]
      rw [if_neg (by omega), if_neg (by omega)]

theorem rebalance_high_left {root : Root} {left right : RootTree} (hleft : left.Balanced)
    (hright : right.Balanced) (hhigh : left.HighToward root)
    (hheight : left.trueHeight = right.trueHeight + 2) (entry : RootEntry) :
    (rebalance root (join left entry right)).Balanced ∧
      (rebalance root (join left entry right)).trueHeight = left.trueHeight := by
  have hbalance : 1 < (join left entry right).balance := by
    rw [balance_join hleft hright]
    omega
  cases left with
  | leaf => exact hhigh.elim
  | node a child height b =>
      obtain ⟨ha, hb, hab, hba, -⟩ := hleft
      simp only [trueHeight] at hheight
      simp only [join, rebalance] at hbalance ⊢
      rw [if_pos hbalance]
      rcases hhigh with ⟨rfl, rfl⟩ | ⟨hlt, hside⟩ | ⟨hgt, hside⟩
      · simp [trueHeight] at hheight
      · rw [if_pos hlt, rotateRight]
        have hinner : (join b entry right).Balanced :=
          balanced_join hb hright (by omega) (by omega) entry
        refine ⟨balanced_join ha hinner ?_ ?_ child, ?_⟩ <;>
          simp only [trueHeight_join, trueHeight] <;> omega
      · rw [if_neg (Root.not_lt_of_lt hgt), if_pos hgt]
        cases b with
        | leaf => simp [trueHeight] at hside
        | node c pivot height' d =>
            obtain ⟨hc, hd, hcd, hdc, -⟩ := hb
            simp only [trueHeight] at hside hheight
            rw [rotateLeft, join, rotateRight]
            have hlower : (join a child c).Balanced :=
              balanced_join ha hc (by omega) (by omega) child
            have hupper : (join d entry right).Balanced :=
              balanced_join hd hright (by omega) (by omega) entry
            refine ⟨balanced_join hlower hupper ?_ ?_ pivot, ?_⟩ <;>
              simp only [trueHeight_join, trueHeight] <;> omega

theorem rebalance_high_right {root : Root} {left right : RootTree} (hleft : left.Balanced)
    (hright : right.Balanced) (hhigh : right.HighToward root)
    (hheight : right.trueHeight = left.trueHeight + 2) (entry : RootEntry) :
    (rebalance root (join left entry right)).Balanced ∧
      (rebalance root (join left entry right)).trueHeight = right.trueHeight := by
  have hbalance : (join left entry right).balance < -1 := by
    rw [balance_join hleft hright]
    omega
  cases right with
  | leaf => exact hhigh.elim
  | node a child height b =>
      obtain ⟨ha, hb, hab, hba, -⟩ := hright
      simp only [trueHeight] at hheight
      simp only [join, rebalance] at hbalance ⊢
      rw [if_neg (by omega), if_pos hbalance]
      rcases hhigh with ⟨rfl, rfl⟩ | ⟨hlt, hside⟩ | ⟨hgt, hside⟩
      · simp [trueHeight] at hheight
      · rw [if_neg (Root.not_lt_of_lt hlt), if_pos hlt]
        cases a with
        | leaf => simp [trueHeight] at hside
        | node c pivot height' d =>
            obtain ⟨hc, hd, hcd, hdc, -⟩ := ha
            simp only [trueHeight] at hside hheight
            rw [rotateRight, join, rotateLeft]
            have hlower : (join left entry c).Balanced :=
              balanced_join hleft hc (by omega) (by omega) entry
            have hupper : (join d child b).Balanced :=
              balanced_join hd hb (by omega) (by omega) child
            refine ⟨balanced_join hlower hupper ?_ ?_ pivot, ?_⟩ <;>
              simp only [trueHeight_join, trueHeight] <;> omega
      · rw [if_pos hgt, rotateLeft]
        have hinner : (join left entry a).Balanced :=
          balanced_join hleft ha (by omega) (by omega) entry
        refine ⟨balanced_join hinner hb ?_ ?_ child, ?_⟩ <;>
          simp only [trueHeight_join, trueHeight] <;> omega

/-! ### Growing -/

/-- What an insertion of `root` below a balanced tree leaves: a balanced tree that is as high
as before, or higher by one and then on the side of `root`. -/
structure Grown (root : Root) (before after : RootTree) : Prop where
  balanced : after.Balanced
  height : after.trueHeight = before.trueHeight ∨
    after.trueHeight = before.trueHeight + 1 ∧ after.HighToward root

theorem grown_of_left {root : Root} {left left' right : RootTree} {entry : RootEntry}
    {height : Nat} (hbalanced : (node left entry height right).Balanced)
    (hlt : root < entry.root) (hgrown : Grown root left left') :
    Grown root (node left entry height right) (rebalance root (join left' entry right)) := by
  obtain ⟨hleft, hright, hlr, hrl, -⟩ := hbalanced
  obtain ⟨hleft', hheight⟩ := hgrown
  by_cases hhigh : left'.trueHeight = right.trueHeight + 2
  · have hup : left'.HighToward root := by
      rcases hheight with hsame | ⟨-, hup⟩
      · omega
      · exact hup
    obtain ⟨hafter, hafterHeight⟩ := rebalance_high_left hleft' hright hup hhigh entry
    refine ⟨hafter, .inl ?_⟩
    rw [hafterHeight, trueHeight]
    omega
  · -- no rotation: the difference is at most one, as the left side grew by at most one
    have hlr' : left'.trueHeight ≤ right.trueHeight + 1 := by omega
    have hrl' : right.trueHeight ≤ left'.trueHeight + 1 := by omega
    rw [rebalance_of_level root]
    · refine ⟨balanced_join hleft' hright hlr' hrl' entry, ?_⟩
      simp only [trueHeight, join, HighToward]
      rcases hheight with hsame | ⟨hmore, -⟩
      · left
        rw [hsame]
      · by_cases hle : left'.trueHeight ≤ right.trueHeight
        · left
          omega
        · right
          exact ⟨by omega, .inr (.inl ⟨hlt, by omega⟩)⟩
    all_goals
      rw [balance_join hleft' hright]
      omega

theorem grown_of_right {root : Root} {left right right' : RootTree} {entry : RootEntry}
    {height : Nat} (hbalanced : (node left entry height right).Balanced)
    (hgt : entry.root < root) (hgrown : Grown root right right') :
    Grown root (node left entry height right) (rebalance root (join left entry right')) := by
  obtain ⟨hleft, hright, hlr, hrl, -⟩ := hbalanced
  obtain ⟨hright', hheight⟩ := hgrown
  by_cases hhigh : right'.trueHeight = left.trueHeight + 2
  · have hup : right'.HighToward root := by
      rcases hheight with hsame | ⟨-, hup⟩
      · omega
      · exact hup
    obtain ⟨hafter, hafterHeight⟩ := rebalance_high_right hleft hright' hup hhigh entry
    refine ⟨hafter, .inl ?_⟩
    rw [hafterHeight, trueHeight]
    omega
  · have hlr' : left.trueHeight ≤ right'.trueHeight + 1 := by omega
    have hrl' : right'.trueHeight ≤ left.trueHeight + 1 := by omega
    rw [rebalance_of_level root]
    · refine ⟨balanced_join hleft hright' hlr' hrl' entry, ?_⟩
      simp only [trueHeight, join, HighToward]
      rcases hheight with hsame | ⟨hmore, -⟩
      · left
        rw [hsame]
      · by_cases hle : right'.trueHeight ≤ left.trueHeight
        · left
          omega
        · right
          exact ⟨by omega, .inr (.inr ⟨hgt, by omega⟩)⟩
    all_goals
      rw [balance_join hleft hright']
      omega

theorem grown_grow (root : Root) {tree : RootTree} (hbalanced : tree.Balanced) :
    Grown root tree (grow root tree) := by
  induction tree with
  | leaf =>
      refine ⟨by simp [grow, Balanced, trueHeight], .inr ⟨rfl, ?_⟩⟩
      exact .inl ⟨rfl, rfl⟩
  | node left entry height right ihLeft ihRight =>
      rw [grow]
      split
      · next hlt => exact grown_of_left hbalanced hlt (ihLeft hbalanced.1)
      · split
        · next hgt => exact grown_of_right hbalanced hgt (ihRight hbalanced.2.1)
        · exact ⟨hbalanced, .inl rfl⟩

theorem Balanced.insert {tree : RootTree} (hbalanced : tree.Balanced) (root : Root) :
    (tree.insert root).2.Balanced := by
  rw [RootTree.insert]
  split
  · exact hbalanced
  · exact (grown_grow root hbalanced).balanced

theorem Balanced.insertAll {tree : RootTree} (hbalanced : tree.Balanced)
    (inserted : List Root) : (tree.insertAll inserted).2.Balanced := by
  induction inserted generalizing tree with
  | nil => exact hbalanced
  | cons root rest ih => exact ih (hbalanced.insert root)

/-! ### Recording -/

theorem trueHeight_record (root : Root) (derivation : Derivation) (tree : RootTree) :
    (tree.record root derivation).trueHeight = tree.trueHeight := by
  induction tree with
  | leaf => rfl
  | node left entry height right ihLeft ihRight =>
      rw [record]
      split
      · rw [trueHeight, ihLeft, trueHeight]
      · split
        · rw [trueHeight, ihRight, trueHeight]
        · rfl

theorem Balanced.record {tree : RootTree} (hbalanced : tree.Balanced) (root : Root)
    (derivation : Derivation) : (tree.record root derivation).Balanced := by
  induction tree with
  | leaf => exact hbalanced
  | node left entry height right ihLeft ihRight =>
      obtain ⟨hleft, hright, hheights⟩ := hbalanced
      rw [RootTree.record]
      split
      · refine ⟨ihLeft hleft, hright, ?_⟩
        rwa [trueHeight_record]
      · split
        · refine ⟨hleft, ihRight hright, ?_⟩
          rwa [trueHeight_record]
        · exact ⟨hleft, hright, hheights⟩

/-- After any run of insertions into the empty tree the two sides of every node differ in
height by at most one and every height kept is the true one, so that the height at the top is
that of the tree and the check succeeds. The check decides just this on any tree, also on one
that keeps wrong heights. -/
theorem insertAll_balanced_and_checked :
    (∀ inserted : List Root,
      let tree := (leaf.insertAll inserted).2
      tree.Balanced ∧ tree.height = tree.trueHeight ∧ tree.isBalanced = true) ∧
    ∀ tree : RootTree, tree.isBalanced = true ↔ tree.Balanced := by
  refine ⟨?_, fun tree => isBalanced_iff⟩
  intro inserted tree
  have hbalanced : tree.Balanced := balanced_leaf.insertAll inserted
  exact ⟨hbalanced, hbalanced.height_eq, isBalanced_iff.mpr hbalanced⟩

end Triliteral.RootTree
