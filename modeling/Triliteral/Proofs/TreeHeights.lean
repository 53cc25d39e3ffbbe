import Mathlib.Data.Nat.Fib.Basic
import Triliteral.Proofs.ArenaInsertion

/-!
Heights of trees and how many nodes they take. A tree of a height has fewer nodes than a power of
two tells, one less exactly if it is perfect; a balanced tree has at least as many as a Fibonacci
number tells. Rebalancing a node is told by the side on which it is higher.
-/

namespace Triliteral

namespace Root

variable {a b : Root}

theorem side?_eq_left_iff : a.side? b = some .left ↔ a < b := by
  unfold side?
  split
  · simpa
  · split <;> simpa

theorem side?_eq_right_iff : a.side? b = some .right ↔ b < a := by
  unfold side?
  split
  · next hlt => simpa using not_lt_of_lt hlt
  · split <;> simpa

end Root

namespace RootTree

variable {tree near far : RootTree} {root : Root} {entry : RootEntry} {height : Nat} {side : Side}

/-! ### Nodes with a near and a far side -/

@[simp] theorem trueHeight_toward :
    (toward side near entry height far).trueHeight = 1 + max near.trueHeight far.trueHeight := by
  cases side with
  | left => rfl
  | right => exact congrArg (1 + ·) (Nat.max_comm _ _)

@[simp] theorem size_toward :
    (toward side near entry height far).size = near.size + far.size + 1 := by
  cases side with
  | left => rfl
  | right => exact congrArg (· + 1) (Nat.add_comm _ _)

theorem mem_roots_toward {other : Root} :
    other ∈ (toward side near entry height far).roots ↔
      other = entry.root ∨ other ∈ near.roots ∨ other ∈ far.roots := by
  cases side <;> simp [toward] <;> tauto

theorem ordered_toward_iff :
    (toward side near entry height far).Ordered ↔
      near.Ordered ∧ far.Ordered ∧ (∀ root ∈ near.roots, root.side? entry.root = some side) ∧
        ∀ root ∈ far.roots, root.side? entry.root = some side.other := by
  cases side with
  | left =>
      simp only [toward, ordered_node_iff, Side.other, Root.side?_eq_left_iff,
        Root.side?_eq_right_iff]
  | right =>
      simp only [toward, ordered_node_iff, Side.other, Root.side?_eq_left_iff,
        Root.side?_eq_right_iff]
      tauto

theorem balanced_toward_iff :
    (toward side near entry height far).Balanced ↔
      near.Balanced ∧ far.Balanced ∧ near.trueHeight ≤ far.trueHeight + 1 ∧
        far.trueHeight ≤ near.trueHeight + 1 ∧
        height = 1 + max near.trueHeight far.trueHeight := by
  cases side with
  | left => exact Iff.rfl
  | right =>
      rw [Nat.max_comm]
      simp only [toward, Balanced]
      tauto

theorem joinToward_eq (hnear : near.Balanced) (hfar : far.Balanced) (entry : RootEntry) :
    joinToward side near entry far =
      toward side near entry (1 + max near.trueHeight far.trueHeight) far := by
  rw [← hnear.height_eq, ← hfar.height_eq]
  cases side with
  | left => rfl
  | right => rw [Nat.max_comm]; rfl

/-- A node whose sides differ by at most one level stays as it is. -/
theorem rebalance_joinToward_of_level (hnear : near.Balanced) (hfar : far.Balanced)
    (hle : near.trueHeight ≤ far.trueHeight + 1) (hge : far.trueHeight ≤ near.trueHeight + 1)
    (root : Root) (entry : RootEntry) :
    rebalance root (joinToward side near entry far) = joinToward side near entry far := by
  cases side with
  | left =>
      refine rebalance_of_level root ?_ ?_ <;>
        (rw [joinToward, balance_join hnear hfar]; omega)
  | right =>
      refine rebalance_of_level root ?_ ?_ <;>
        (rw [joinToward, balance_join hfar hnear]; omega)

/-- A node that is higher by two levels on a side is relieved on that side. -/
theorem rebalance_joinToward_of_high (hnear : near.Balanced) (hfar : far.Balanced)
    (hheight : near.trueHeight = far.trueHeight + 2) (root : Root) (entry : RootEntry) :
    rebalance root (joinToward side near entry far) =
      relieve root side near entry (1 + max near.trueHeight far.trueHeight) far := by
  rw [joinToward_eq hnear hfar]
  cases side with
  | left =>
      rw [toward, rebalance_eq, if_pos]
      rw [balance, hnear.height_eq, hfar.height_eq]
      omega
  | right =>
      rw [toward, rebalance_eq, if_neg, if_pos]
      all_goals
        rw [balance, hnear.height_eq, hfar.height_eq]
        omega

theorem HighToward.exists_side (h : tree.HighToward root) (hheight : 1 < tree.trueHeight) :
    ∃ (turn : Side) (near far : RootTree) (entry : RootEntry) (height : Nat),
      tree = toward turn near entry height far ∧ root.side? entry.root = some turn ∧
        near.trueHeight = far.trueHeight + 1 := by
  cases tree with
  | leaf => exact h.elim
  | node left entry height right =>
      rcases h with ⟨rfl, rfl⟩ | ⟨hlt, hhigh⟩ | ⟨hgt, hhigh⟩
      · simp [trueHeight] at hheight
      · exact ⟨.left, left, right, entry, height, rfl, Root.side?_eq_left_iff.mpr hlt, hhigh⟩
      · exact ⟨.right, right, left, entry, height, rfl, Root.side?_eq_right_iff.mpr hgt, hhigh⟩

/-- A node that is relieved loses the level by which its side grew. -/
theorem trueHeight_rebalance_of_high (hnear : near.Balanced) (hfar : far.Balanced)
    (hhigh : near.HighToward root) (hheight : near.trueHeight = far.trueHeight + 2)
    (entry : RootEntry) :
    (rebalance root (joinToward side near entry far)).trueHeight = near.trueHeight := by
  cases side with
  | left => exact (rebalance_high_left hnear hfar hhigh hheight entry).2
  | right => exact (rebalance_high_right hfar hnear hhigh hheight entry).2

/-! ### Sizes -/

theorem eq_leaf_of_trueHeight (h : tree.trueHeight = 0) : tree = leaf := by
  cases tree with
  | leaf => rfl
  | node left entry height right =>
      rw [trueHeight] at h
      omega

/-- The two sides of a balanced node have together what the Fibonacci numbers ask for. -/
theorem fib_le_add {low high : Nat} (hle : high ≤ low + 1) :
    Nat.fib (1 + high + 2) ≤ Nat.fib (low + 2) + Nat.fib (high + 2) := by
  rw [show 1 + high + 2 = high + 1 + 2 by omega, Nat.fib_add_two]
  exact Nat.add_le_add_right (Nat.fib_mono (by omega)) _

theorem Balanced.fib_le_size (h : tree.Balanced) :
    Nat.fib (tree.trueHeight + 2) ≤ tree.size + 1 := by
  induction tree with
  | leaf => exact Nat.le_refl 1
  | node left entry height right ihLeft ihRight =>
      obtain ⟨hleft, hright, hlr, hrl, -⟩ := h
      have hsum : Nat.fib (1 + max left.trueHeight right.trueHeight + 2) ≤
          Nat.fib (left.trueHeight + 2) + Nat.fib (right.trueHeight + 2) := by
        rcases Nat.le_total left.trueHeight right.trueHeight with hle | hle
        · rw [Nat.max_eq_right hle]
          exact fib_le_add hrl
        · rw [Nat.max_eq_left hle, Nat.add_comm (Nat.fib _)]
          exact fib_le_add hlr
      calc Nat.fib (1 + max left.trueHeight right.trueHeight + 2)
          ≤ (left.size + 1) + (right.size + 1) :=
            hsum.trans (Nat.add_le_add (ihLeft hleft) (ihRight hright))
        _ = left.size + right.size + 1 + 1 := by omega

def Perfect : RootTree → Prop
  | leaf => True
  | node left _ _ right =>
    left.Perfect ∧ right.Perfect ∧ left.trueHeight = right.trueHeight

theorem perfect_toward_iff :
    (toward side near entry height far).Perfect ↔
      near.Perfect ∧ far.Perfect ∧ near.trueHeight = far.trueHeight := by
  cases side with
  | left => exact Iff.rfl
  | right =>
      simp only [toward, Perfect]
      tauto

theorem size_lt_two_pow_trueHeight (tree : RootTree) : tree.size < 2 ^ tree.trueHeight := by
  induction tree with
  | leaf => exact Nat.one_pos
  | node left entry height right ihLeft ihRight =>
      have hleft : 2 ^ left.trueHeight ≤ 2 ^ max left.trueHeight right.trueHeight :=
        Nat.pow_le_pow_right Nat.two_pos (Nat.le_max_left _ _)
      have hright : 2 ^ right.trueHeight ≤ 2 ^ max left.trueHeight right.trueHeight :=
        Nat.pow_le_pow_right Nat.two_pos (Nat.le_max_right _ _)
      rw [size, trueHeight, Nat.pow_add]
      omega

/-- A tree is perfect exactly if there is no room for another node at its height. -/
theorem perfect_iff : tree.Perfect ↔ tree.size + 1 = 2 ^ tree.trueHeight := by
  induction tree with
  | leaf => exact iff_of_true trivial rfl
  | node left entry height right ihLeft ihRight =>
      have hleftSize := left.size_lt_two_pow_trueHeight
      have hrightSize := right.size_lt_two_pow_trueHeight
      rw [Perfect, ihLeft, ihRight, size, trueHeight, Nat.pow_add]
      constructor
      · rintro ⟨hleft, hright, heq⟩
        rw [heq, Nat.max_self]
        rw [heq] at hleft
        omega
      · -- a lower side would leave room for at least half of the nodes of the other one
        intro hfull
        have hlower : ∀ {low high : Nat}, low < high → 2 ^ low * 2 ≤ 2 ^ high := by
          intro low high hlt
          rw [← Nat.pow_succ]
          exact Nat.pow_le_pow_right Nat.two_pos hlt
        rcases Nat.lt_trichotomy left.trueHeight right.trueHeight with hlt | heq | hgt
        · rw [Nat.max_eq_right hlt.le] at hfull
          have := hlower hlt
          omega
        · rw [heq, Nat.max_self] at hfull
          rw [heq] at hleftSize ⊢
          omega
        · rw [Nat.max_eq_left hgt.le] at hfull
          have := hlower hgt
          omega

end RootTree

end Triliteral
