import Mathlib.Data.Finset.Card
import Triliteral.Proofs.TreeWalk

/-!
Runs of insertions. A tree that was filled by insertions is the sorted set of the inserted
roots, for every way of looking at it: outcomes, lookups, size and walks.
-/

namespace Triliteral.RootTree

/-- Inserts roots one after the other and keeps what each insertion did. -/
def insertAll : RootTree → List Root → List Insertion × RootTree
  | tree, [] => ([], tree)
  | tree, root :: rest =>
    let (outcome, next) := tree.insert root
    let (outcomes, last) := next.insertAll rest
    (outcome :: outcomes, last)

@[simp] theorem insertAll_nil (tree : RootTree) : tree.insertAll [] = ([], tree) := rfl

@[simp] theorem insertAll_cons (tree : RootTree) (root : Root) (rest : List Root) :
    tree.insertAll (root :: rest) =
      ((tree.insert root).1 :: ((tree.insert root).2.insertAll rest).1,
        ((tree.insert root).2.insertAll rest).2) :=
  rfl

/-! ### One insertion -/

theorem insert_outcome {tree : RootTree} (hordered : tree.Ordered) (root : Root) :
    (tree.insert root).1 = if root ∈ tree.roots then .alreadyPresent else .added := by
  rw [insert_eq hordered]
  split <;> rfl

theorem mem_roots_insert {tree : RootTree} (hordered : tree.Ordered) {root other : Root} :
    other ∈ (tree.insert root).2.roots ↔ other = root ∨ other ∈ tree.roots := by
  rw [insert_eq hordered]
  split
  · next hold =>
    constructor
    · exact .inr
    · rintro (rfl | hother)
      · exact hold
      · exact hother
  · next hnew => exact mem_roots_grow hordered hnew

theorem size_insert {tree : RootTree} (hordered : tree.Ordered) (root : Root) :
    (tree.insert root).2.size = tree.size + if root ∈ tree.roots then 0 else 1 := by
  rw [insert_eq hordered]
  split
  · rfl
  · next hnew =>
    simp only [size_eq_length_roots, roots_eq_map_entries, entries_grow hordered hnew,
      List.length_map, List.orderedInsert_length]

/-! ### A run of insertions -/

theorem Ordered.insertAll {tree : RootTree} (hordered : tree.Ordered) (inserted : List Root) :
    (tree.insertAll inserted).2.Ordered := by
  induction inserted generalizing tree with
  | nil => exact hordered
  | cons root rest ih => exact ih (hordered.insert root)

theorem mem_roots_insertAll {tree : RootTree} (hordered : tree.Ordered) {inserted : List Root}
    {other : Root} :
    other ∈ (tree.insertAll inserted).2.roots ↔ other ∈ inserted ∨ other ∈ tree.roots := by
  induction inserted generalizing tree with
  | nil => simp
  | cons root rest ih =>
      rw [insertAll_cons, ih (hordered.insert root), mem_roots_insert hordered, List.mem_cons]
      tauto

/-- A root is added exactly when neither the tree nor an earlier insertion had it. -/
theorem outcome_insertAll {tree : RootTree} (hordered : tree.Ordered) (inserted : List Root)
    (i : Nat) :
    (tree.insertAll inserted).1[i]? = inserted[i]?.map fun root =>
      if root ∈ tree.roots ∨ root ∈ inserted.take i then .alreadyPresent else .added := by
  induction inserted generalizing tree i with
  | nil => rfl
  | cons root rest ih =>
      cases i with
      | zero => simp [insert_outcome hordered]
      | succ i =>
          rw [insertAll_cons, List.getElem?_cons_succ, ih (hordered.insert root),
            List.getElem?_cons_succ, List.take_succ_cons]
          simp only [mem_roots_insert hordered, List.mem_cons, or_assoc, or_left_comm]

theorem size_insertAll {tree : RootTree} (hordered : tree.Ordered) (inserted : List Root) :
    (tree.insertAll inserted).2.size =
      tree.size + (tree.insertAll inserted).1.count .added := by
  induction inserted generalizing tree with
  | nil => rfl
  | cons root rest ih =>
      rw [insertAll_cons, ih (hordered.insert root), size_insert hordered, List.count_cons,
        insert_outcome hordered]
      split
      · simp
      · simp only [beq_self_eq_true, if_true]
        omega

theorem nodup_roots {tree : RootTree} (hordered : tree.Ordered) : tree.roots.Nodup :=
  hordered.imp Root.ne_of_lt

theorem size_eq_card {tree : RootTree} (hordered : tree.Ordered) {inserted : List Root}
    (hmem : ∀ root, root ∈ tree.roots ↔ root ∈ inserted) :
    tree.size = inserted.toFinset.card := by
  have hset : tree.roots.toFinset = inserted.toFinset := by
    ext root
    simp only [List.mem_toFinset, hmem]
  rw [size_eq_length_roots, ← hset, List.toFinset_card_of_nodup (nodup_roots hordered)]

theorem findText?_eq_some_iff {tree : RootTree} (hordered : tree.Ordered) {text : String}
    {found : Node} :
    tree.findText? text = some found ↔ found ∈ tree.nodes ∧ found.entry.root.text = text := by
  rw [findText?_eq, Option.bind_eq_some_iff]
  simp only [Root.ofText?_eq_some_iff, find?_eq_some_iff hordered]
  constructor
  · rintro ⟨root, rfl, hmem, rfl⟩
    exact ⟨hmem, rfl⟩
  · rintro ⟨hmem, rfl⟩
    exact ⟨found.entry.root, rfl, hmem, rfl⟩

theorem containsText_iff {tree : RootTree} (hordered : tree.Ordered) {text : String} :
    tree.containsText text = true ↔ ∃ root ∈ tree.roots, root.text = text := by
  rw [containsText, Option.isSome_iff_exists]
  simp only [findText?_eq_some_iff hordered, roots, entries, List.mem_map,
    exists_exists_and_eq_and]

/-- A tree filled by insertions is the sorted set of the inserted roots. Each insertion adds
its root unless an earlier one did; a text is found exactly if it is that of an inserted root,
and then at the node of this root; there are as many nodes as different roots, one for each
addition; and a walk visits the nodes in strictly ascending order of their texts, each
inserted root at one node. -/
theorem insertAll_refines_sortedSet (inserted : List Root) :
    let outcomes := (leaf.insertAll inserted).1
    let tree := (leaf.insertAll inserted).2
    (∀ i, outcomes[i]? = inserted[i]?.map fun root =>
      if root ∈ inserted.take i then .alreadyPresent else .added) ∧
    (∀ text, tree.containsText text = true ↔ ∃ root ∈ inserted, root.text = text) ∧
    (∀ text, (∃ found, tree.findText? text = some found) ↔
      ∃ root ∈ inserted, root.text = text) ∧
    (∀ text found, tree.findText? text = some found ↔
      found ∈ tree.nodes ∧ found.entry.root.text = text) ∧
    tree.size = inserted.toFinset.card ∧
    tree.size = outcomes.count .added ∧
    (∀ steps, (Walk.start tree).take steps = tree.nodes.take steps) ∧
    tree.roots = tree.nodes.map (fun node => node.entry.root) ∧
    (∀ root, tree.roots.count root = if root ∈ inserted then 1 else 0) ∧
    tree.roots.Pairwise fun a b => a.text < b.text := by
  intro outcomes tree
  have hordered : tree.Ordered := ordered_leaf.insertAll inserted
  have hmem : ∀ root, root ∈ tree.roots ↔ root ∈ inserted := by
    intro root
    rw [mem_roots_insertAll ordered_leaf, roots_leaf]
    simp
  have hcontains : ∀ text, tree.containsText text = true ↔
      ∃ root ∈ inserted, root.text = text := by
    intro text
    simp only [containsText_iff hordered, hmem]
  refine ⟨?_, hcontains, ?_, ?_, size_eq_card hordered hmem, ?_, ?_, ?_, ?_, ?_⟩
  · intro i
    simpa using outcome_insertAll ordered_leaf inserted i
  · intro text
    rw [← hcontains, containsText, Option.isSome_iff_exists]
  · intro text found
    exact findText?_eq_some_iff hordered
  · simpa [size] using size_insertAll ordered_leaf inserted
  · intro steps
    rw [Walk.take_eq, Walk.remaining_start]
  · simp [roots, entries]
  · intro root
    rw [(nodup_roots hordered).count]
    simp only [hmem]
  · exact hordered.imp Root.text_lt_text_iff.mpr

end Triliteral.RootTree
