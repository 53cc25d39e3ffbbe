import Mathlib.Data.List.Sort
import Triliteral.Proofs.RootOrder
import Triliteral.RootTree.Basic

/-!
The entries of a tree in order, and what the operations on trees do to them. A rotation moves
nodes but not entries, so an insertion into an ordered tree is an insertion into an ordered
list.
-/

namespace Triliteral

namespace RootEntry

def Before (a b : RootEntry) : Prop :=
  a.root < b.root

instance : DecidableRel Before :=
  fun a b => inferInstanceAs (Decidable (a.root < b.root))

instance : Std.Asymm Before where
  asymm _ _ := Root.not_lt_of_lt

def recordAt (root : Root) (derivation : Derivation) (entry : RootEntry) : RootEntry :=
  if entry.root = root then
    { entry with derivations := derivation.record entry.derivations }
  else entry

@[simp] theorem root_recordAt (root : Root) (derivation : Derivation) (entry : RootEntry) :
    (entry.recordAt root derivation).root = entry.root := by
  unfold recordAt
  split <;> rfl

theorem recordAt_of_ne {root : Root} {entry : RootEntry} (derivation : Derivation)
    (h : entry.root ≠ root) : entry.recordAt root derivation = entry :=
  if_neg h

end RootEntry

namespace RootTree

/-- The nodes of an ordered tree come in strictly ascending order of their roots. -/
def Ordered (tree : RootTree) : Prop :=
  tree.roots.Pairwise (· < ·)

@[simp] theorem nodes_leaf : leaf.nodes = [] := rfl

@[simp] theorem nodes_node (left right : RootTree) (entry : RootEntry) (height : Nat) :
    (node left entry height right).nodes = left.nodes ++ ⟨entry, height⟩ :: right.nodes :=
  rfl

@[simp] theorem entries_leaf : leaf.entries = [] := rfl

@[simp] theorem entries_node (left right : RootTree) (entry : RootEntry) (height : Nat) :
    (node left entry height right).entries = left.entries ++ entry :: right.entries := by
  simp [entries]

theorem roots_eq_map_entries (tree : RootTree) : tree.roots = tree.entries.map RootEntry.root :=
  rfl

@[simp] theorem roots_leaf : leaf.roots = [] := rfl

@[simp] theorem roots_node (left right : RootTree) (entry : RootEntry) (height : Nat) :
    (node left entry height right).roots = left.roots ++ entry.root :: right.roots := by
  simp [roots]

theorem size_eq_length_roots (tree : RootTree) : tree.size = tree.roots.length := by
  induction tree with
  | leaf => rfl
  | node left entry height right ihLeft ihRight =>
      simp only [size, roots_node, List.length_append, List.length_cons]
      omega

theorem ordered_leaf : leaf.Ordered :=
  List.Pairwise.nil

theorem ordered_node_iff {left right : RootTree} {entry : RootEntry} {height : Nat} :
    (node left entry height right).Ordered ↔
      left.Ordered ∧ right.Ordered ∧ (∀ root ∈ left.roots, root < entry.root) ∧
        ∀ root ∈ right.roots, entry.root < root := by
  simp only [Ordered, roots_node, List.pairwise_append, List.pairwise_cons, List.mem_cons,
    forall_eq_or_imp]
  constructor
  · rintro ⟨hleft, ⟨hbelow, hright⟩, hcross⟩
    refine ⟨hleft, hright, ?_, hbelow⟩
    intro root hroot
    exact (hcross root hroot).1
  · rintro ⟨hleft, hright, habove, hbelow⟩
    refine ⟨hleft, ⟨hbelow, hright⟩, ?_⟩
    intro root hroot
    constructor
    · exact habove root hroot
    · intro other hother
      exact Root.lt_trans (habove root hroot) (hbelow other hother)

/-! ### Looking up -/

theorem mem_roots_of_mem_nodes {tree : RootTree} {node : Node} (h : node ∈ tree.nodes) :
    node.entry.root ∈ tree.roots :=
  List.mem_map_of_mem (List.mem_map_of_mem h)

theorem mem_roots_iff {tree : RootTree} {root : Root} :
    root ∈ tree.roots ↔ ∃ node ∈ tree.nodes, node.entry.root = root := by
  simp [roots, entries]

/-- Descending finds exactly the node of the root, if there is one. -/
theorem find?_eq_some_iff {tree : RootTree} (hordered : tree.Ordered) {root : Root}
    {found : Node} :
    tree.find? root = some found ↔ found ∈ tree.nodes ∧ found.entry.root = root := by
  induction tree with
  | leaf => simp [find?]
  | node left entry height right ihLeft ihRight =>
      obtain ⟨hleft, hright, habove, hbelow⟩ := ordered_node_iff.mp hordered
      simp only [find?, nodes_node, List.mem_append, List.mem_cons]
      split
      · next hlt =>
        rw [ihLeft hleft]
        constructor
        · rintro ⟨hmem, hroot⟩
          exact ⟨.inl hmem, hroot⟩
        · rintro ⟨hmem | rfl | hmem, hroot⟩
          · exact ⟨hmem, hroot⟩
          · exact absurd hroot (Root.ne_of_lt hlt).symm
          · have := hbelow _ (mem_roots_of_mem_nodes hmem)
            exact absurd (hroot ▸ this) (Root.not_lt_of_lt hlt)
      · split
        · next hgt =>
          rw [ihRight hright]
          constructor
          · rintro ⟨hmem, hroot⟩
            exact ⟨.inr (.inr hmem), hroot⟩
          · rintro ⟨hmem | rfl | hmem, hroot⟩
            · have := habove _ (mem_roots_of_mem_nodes hmem)
              exact absurd (hroot ▸ this) (Root.not_lt_of_lt hgt)
            · exact absurd hroot (Root.ne_of_lt hgt)
            · exact ⟨hmem, hroot⟩
        · next hle hge =>
          have heq : entry.root = root := Root.eq_of_not_lt hge hle
          subst heq
          simp only [Option.some.injEq]
          constructor
          · rintro rfl
            exact ⟨.inr (.inl rfl), rfl⟩
          · rintro ⟨hmem | rfl | hmem, hroot⟩
            · exact absurd hroot (Root.ne_of_lt (habove _ (mem_roots_of_mem_nodes hmem)))
            · rfl
            · exact absurd hroot.symm
                (Root.ne_of_lt (hbelow _ (mem_roots_of_mem_nodes hmem)))

theorem contains_iff {tree : RootTree} (hordered : tree.Ordered) {root : Root} :
    tree.contains root = true ↔ root ∈ tree.roots := by
  rw [contains, Option.isSome_iff_exists, mem_roots_iff]
  simp only [find?_eq_some_iff hordered]

/-- Looking for a text is looking for the root that it writes: the descent never stops at a
text of another length. -/
theorem findText?_eq (tree : RootTree) (text : String) :
    tree.findText? text = (Root.ofText? text).bind tree.find? := by
  cases htext : Root.ofText? text with
  | some root =>
      obtain rfl := Root.ofText?_eq_some_iff.mp htext
      induction tree with
      | leaf => rfl
      | node left entry height right ihLeft ihRight =>
          simp only [findText?, Root.text_lt_text_iff, ihLeft, ihRight, Option.bind_some, find?]
  | none =>
      induction tree with
      | leaf => rfl
      | node left entry height right ihLeft ihRight =>
          simp only [findText?, ihLeft, ihRight, Option.bind_none]
          split
          · rfl
          · split
            · rfl
            · next hle hge =>
              have : text = entry.root.text :=
                String.le_antisymm (String.not_lt.mp hge) (String.not_lt.mp hle)
              rw [this, Root.ofText?_text] at htext
              exact absurd htext (by simp)

/-! ### Rotations -/

@[simp] theorem entries_join (left right : RootTree) (entry : RootEntry) :
    (join left entry right).entries = left.entries ++ entry :: right.entries :=
  entries_node ..

@[simp] theorem entries_rotateRight (tree : RootTree) :
    tree.rotateRight.entries = tree.entries := by
  unfold rotateRight
  split <;> simp

@[simp] theorem entries_rotateLeft (tree : RootTree) :
    tree.rotateLeft.entries = tree.entries := by
  unfold rotateLeft
  split <;> simp

@[simp] theorem entries_rebalance (root : Root) (tree : RootTree) :
    (rebalance root tree).entries = tree.entries := by
  cases tree with
  | leaf => rfl
  | node left entry height right =>
      simp only [rebalance]
      split
      · cases left with
        | leaf => rfl
        | node =>
            dsimp only
            split_ifs <;> simp
      · split
        · cases right with
          | leaf => rfl
          | node =>
              dsimp only
              split_ifs <;> simp
        · rfl

/-! ### Insertion -/

theorem orderedInsert_append_of_before {entry middle : RootEntry} {before after : List RootEntry}
    (h : entry.Before middle) :
    (before ++ middle :: after).orderedInsert RootEntry.Before entry =
      before.orderedInsert RootEntry.Before entry ++ middle :: after := by
  induction before with
  | nil => simp [h]
  | cons head before ih =>
      simp only [List.cons_append, List.orderedInsert_cons]
      split
      · rfl
      · rw [ih, List.cons_append]

theorem orderedInsert_append_of_not_before {entry : RootEntry} {before after : List RootEntry}
    (h : ∀ other ∈ before, ¬ entry.Before other) :
    (before ++ after).orderedInsert RootEntry.Before entry =
      before ++ after.orderedInsert RootEntry.Before entry := by
  induction before with
  | nil => rfl
  | cons head before ih =>
      rw [List.cons_append, List.orderedInsert_cons, if_neg (h head (by simp)),
        ih fun other hother => h other (by simp [hother]), List.cons_append]

/-- Growing an ordered tree by a new root puts the root, without derivations, at its place
among the entries. -/
theorem entries_grow {tree : RootTree} (hordered : tree.Ordered) {root : Root}
    (hnew : root ∉ tree.roots) :
    (grow root tree).entries = tree.entries.orderedInsert RootEntry.Before ⟨root, []⟩ := by
  induction tree with
  | leaf => rfl
  | node left entry height right ihLeft ihRight =>
      obtain ⟨hleft, hright, habove, -⟩ := ordered_node_iff.mp hordered
      simp only [roots_node, List.mem_append, List.mem_cons, not_or] at hnew
      obtain ⟨hnewLeft, hne, hnewRight⟩ := hnew
      simp only [grow, entries_node]
      split
      · next hlt =>
        have hbefore : RootEntry.Before ⟨root, []⟩ entry := hlt
        rw [entries_rebalance, entries_join, ihLeft hleft hnewLeft,
          orderedInsert_append_of_before hbefore]
      · next hle =>
        have hgt : entry.root < root := by
          by_contra hge
          exact hne (Root.eq_of_not_lt hle hge)
        have hbefore : ∀ other ∈ left.entries ++ [entry],
            ¬ RootEntry.Before ⟨root, []⟩ other := by
          intro other hother
          refine Root.not_lt_of_lt ?_
          rcases List.mem_append.mp hother with hother | hother
          · exact Root.lt_trans (habove _ (List.mem_map_of_mem hother)) hgt
          · obtain rfl := List.mem_singleton.mp hother
            exact hgt
        rw [if_pos hgt, entries_rebalance, entries_join, ihRight hright hnewRight]
        simpa using (orderedInsert_append_of_not_before hbefore).symm

theorem mem_roots_grow {tree : RootTree} (hordered : tree.Ordered) {root other : Root}
    (hnew : root ∉ tree.roots) :
    other ∈ (grow root tree).roots ↔ other = root ∨ other ∈ tree.roots := by
  simp only [roots_eq_map_entries, entries_grow hordered hnew, List.mem_map,
    List.mem_orderedInsert]
  constructor
  · rintro ⟨entry, rfl | hentry, rfl⟩
    · exact .inl rfl
    · exact .inr ⟨entry, hentry, rfl⟩
  · rintro (rfl | ⟨entry, hentry, rfl⟩)
    · exact ⟨_, .inl rfl, rfl⟩
    · exact ⟨entry, .inr hentry, rfl⟩

theorem pairwise_orderedInsert {entries : List RootEntry} {entry : RootEntry}
    (hsorted : entries.Pairwise RootEntry.Before)
    (hnew : ∀ other ∈ entries, other.root ≠ entry.root) :
    (entries.orderedInsert RootEntry.Before entry).Pairwise RootEntry.Before := by
  induction entries with
  | nil => simp
  | cons head rest ih =>
      obtain ⟨hhead, hrest⟩ := List.pairwise_cons.mp hsorted
      rw [List.orderedInsert_cons]
      split
      · next hlt =>
        refine List.pairwise_cons.mpr ⟨?_, hsorted⟩
        intro other hother
        rcases List.mem_cons.mp hother with rfl | hother
        · exact hlt
        · exact Root.lt_trans hlt (hhead other hother)
      · next hle =>
        have hgt : head.Before entry := by
          by_contra hge
          exact hnew head (by simp) (Root.eq_of_not_lt hge hle)
        refine List.pairwise_cons.mpr
          ⟨?_, ih hrest fun other hother => hnew other (by simp [hother])⟩
        intro other hother
        rcases (List.mem_orderedInsert _).mp hother with rfl | hother
        · exact hgt
        · exact hhead other hother

theorem ordered_iff_entries {tree : RootTree} :
    tree.Ordered ↔ tree.entries.Pairwise RootEntry.Before :=
  List.pairwise_map

theorem Ordered.grow {tree : RootTree} (hordered : tree.Ordered) {root : Root}
    (hnew : root ∉ tree.roots) : (grow root tree).Ordered := by
  rw [ordered_iff_entries, entries_grow hordered hnew]
  refine pairwise_orderedInsert (ordered_iff_entries.mp hordered) ?_
  rintro other hother rfl
  exact hnew (List.mem_map_of_mem hother)

/-- An insertion tells whether the root was there, and changes the entries only if it was
not. -/
theorem insert_eq {tree : RootTree} (hordered : tree.Ordered) (root : Root) :
    tree.insert root =
      if root ∈ tree.roots then (.alreadyPresent, tree) else (.added, grow root tree) := by
  simp only [insert, contains_iff hordered]

theorem Ordered.insert {tree : RootTree} (hordered : tree.Ordered) (root : Root) :
    (tree.insert root).2.Ordered := by
  rw [insert_eq hordered]
  split
  · exact hordered
  · next hnew => exact hordered.grow hnew

/-! ### Recording -/

@[simp] theorem roots_record (root : Root) (derivation : Derivation) (tree : RootTree) :
    (record root derivation tree).roots = tree.roots := by
  induction tree with
  | leaf => rfl
  | node left entry height right ihLeft ihRight =>
      simp only [record]
      split
      · simp [ihLeft]
      · split
        · simp [ihRight]
        · simp

theorem Ordered.record {tree : RootTree} (hordered : tree.Ordered) (root : Root)
    (derivation : Derivation) : (record root derivation tree).Ordered := by
  rw [Ordered, roots_record]
  exact hordered

theorem map_recordAt_of_not_mem {entries : List RootEntry} {root : Root}
    (derivation : Derivation) (h : root ∉ entries.map RootEntry.root) :
    entries.map (RootEntry.recordAt root derivation) = entries := by
  conv_rhs => rw [← List.map_id entries]
  refine List.map_congr_left fun entry hentry => RootEntry.recordAt_of_ne derivation ?_
  rintro rfl
  exact h (List.mem_map_of_mem hentry)

theorem entries_record {tree : RootTree} (hordered : tree.Ordered) (root : Root)
    (derivation : Derivation) :
    (record root derivation tree).entries =
      tree.entries.map (RootEntry.recordAt root derivation) := by
  induction tree with
  | leaf => rfl
  | node left entry height right ihLeft ihRight =>
      obtain ⟨hleft, hright, habove, hbelow⟩ := ordered_node_iff.mp hordered
      simp only [record, entries_node, List.map_append, List.map_cons]
      split
      · next hlt =>
        have hnot : root ∉ right.entries.map RootEntry.root :=
          fun hmem => Root.not_lt_of_lt hlt (hbelow root hmem)
        rw [entries_node, ihLeft hleft, map_recordAt_of_not_mem derivation hnot,
          RootEntry.recordAt_of_ne derivation (Root.ne_of_lt hlt).symm]
      · split
        · next hgt =>
          have hnot : root ∉ left.entries.map RootEntry.root :=
            fun hmem => Root.not_lt_of_lt hgt (habove root hmem)
          rw [entries_node, ihRight hright, map_recordAt_of_not_mem derivation hnot,
            RootEntry.recordAt_of_ne derivation (Root.ne_of_lt hgt)]
        · next hle hge =>
          obtain rfl := Root.eq_of_not_lt hge hle
          have hnotLeft : entry.root ∉ left.entries.map RootEntry.root :=
            fun hmem => Root.lt_irrefl _ (habove entry.root hmem)
          have hnotRight : entry.root ∉ right.entries.map RootEntry.root :=
            fun hmem => Root.lt_irrefl _ (hbelow entry.root hmem)
          rw [entries_node, map_recordAt_of_not_mem derivation hnotLeft,
            map_recordAt_of_not_mem derivation hnotRight, RootEntry.recordAt, if_pos rfl]

end RootTree

end Triliteral
