import Triliteral.Proofs.RootRestoration

/-!
All derivations of a tree. Insertions only rearrange them, and recording a new word on a stored
root adds one.
-/

namespace Triliteral.RootTree

def derivations (tree : RootTree) : List Derivation :=
  tree.entries.flatMap RootEntry.derivations

variable {tree : RootTree}

theorem mem_derivations {derivation : Derivation} :
    derivation ∈ tree.derivations ↔ ∃ entry ∈ tree.entries, derivation ∈ entry.derivations :=
  List.mem_flatMap

theorem derivations_insert (hordered : tree.Ordered) (root : Root) :
    (tree.insert root).2.derivations.Perm tree.derivations := by
  rw [insert_eq hordered]
  split
  · exact .refl _
  · next hnew =>
    rw [derivations, derivations, entries_grow hordered hnew]
    exact (List.perm_orderedInsert RootEntry.Before ⟨root, []⟩ tree.entries).flatMap_right _

theorem mem_derivations_record (hordered : tree.Ordered) {root : Root}
    {derivation other : Derivation} (h : other ∈ (tree.record root derivation).derivations) :
    other ∈ tree.derivations ∨ other = derivation := by
  obtain ⟨changed, hchanged, hother⟩ := mem_derivations.mp h
  rw [entries_record hordered] at hchanged
  obtain ⟨entry, hentry, rfl⟩ := List.mem_map.mp hchanged
  rw [RootEntry.recordAt] at hother
  split at hother
  · simp only [Derivation.record] at hother
    split at hother
    · exact .inl (mem_derivations.mpr ⟨entry, hentry, hother⟩)
    · rcases List.mem_append.mp hother with hother | hother
      · exact .inl (mem_derivations.mpr ⟨entry, hentry, hother⟩)
      · exact .inr (List.mem_singleton.mp hother)
  · exact .inl (mem_derivations.mpr ⟨entry, hentry, hother⟩)

theorem mem_derivations_recordAll (hordered : tree.Ordered) {root : Root}
    {derivations : List Derivation} {other : Derivation}
    (h : other ∈ (recordAll root derivations tree).derivations) :
    other ∈ tree.derivations ∨ other ∈ derivations := by
  induction derivations generalizing tree with
  | nil => exact .inl h
  | cons derivation derivations ih =>
      rcases ih (hordered.record root derivation) h with hfirst | hrest
      · rcases mem_derivations_record hordered hfirst with hold | rfl
        · exact .inl hold
        · exact .inr List.mem_cons_self
      · exact .inr (List.mem_cons_of_mem _ hrest)

/-- Recording on a stored root changes its entry and no other. -/
theorem entries_record_of_split (hordered : tree.Ordered) {before after : List RootEntry}
    {entry : RootEntry} (hsplit : tree.entries = before ++ entry :: after)
    (derivation : Derivation) :
    (tree.record entry.root derivation).entries =
      before ++ { entry with derivations := derivation.record entry.derivations } :: after := by
  have hsorted := ordered_iff_entries.mp hordered
  rw [hsplit, List.pairwise_append, List.pairwise_cons] at hsorted
  obtain ⟨-, ⟨hafter, -⟩, hbefore⟩ := hsorted
  have hnotBefore : entry.root ∉ before.map RootEntry.root := by
    intro hmem
    obtain ⟨other, hother, hroot⟩ := List.mem_map.mp hmem
    exact Root.ne_of_lt (hbefore other hother entry List.mem_cons_self) hroot
  have hnotAfter : entry.root ∉ after.map RootEntry.root := by
    intro hmem
    obtain ⟨other, hother, hroot⟩ := List.mem_map.mp hmem
    exact Root.ne_of_lt (hafter other hother) hroot.symm
  rw [entries_record hordered, hsplit, List.map_append, List.map_cons,
    map_recordAt_of_not_mem derivation hnotBefore, map_recordAt_of_not_mem derivation hnotAfter,
    RootEntry.recordAt, if_pos rfl]

theorem derivations_record_of_new (hordered : tree.Ordered) {entry : RootEntry}
    (hentry : entry ∈ tree.entries) {derivation : Derivation}
    (hnew : derivation.word ∉ entry.derivations.map Derivation.word) :
    (tree.record entry.root derivation).derivations.Perm (derivation :: tree.derivations) := by
  obtain ⟨before, after, hsplit⟩ := List.append_of_mem hentry
  rw [derivations, derivations, entries_record_of_split hordered hsplit, hsplit,
    Derivation.record_of_new hnew]
  simp only [List.flatMap_append, List.flatMap_cons, List.append_assoc, List.singleton_append]
  rw [← List.append_assoc, ← List.append_assoc]
  exact List.perm_middle

theorem entries_record_of_old (hordered : tree.Ordered) {entry : RootEntry}
    (hentry : entry ∈ tree.entries) {derivation : Derivation}
    (hold : derivation.word ∈ entry.derivations.map Derivation.word) :
    (tree.record entry.root derivation).entries = tree.entries := by
  obtain ⟨before, after, hsplit⟩ := List.append_of_mem hentry
  rw [entries_record_of_split hordered hsplit, Derivation.record_of_old hold, hsplit]

/-- A word that the node of a root has already changes nothing, whatever the tree. -/
theorem record_of_find? {root : Root} {found : Node} (hfound : tree.find? root = some found)
    {derivation : Derivation}
    (hold : derivation.word ∈ found.entry.derivations.map Derivation.word) :
    found.entry.root = root ∧ tree.record root derivation = tree := by
  induction tree with
  | leaf => simp [find?] at hfound
  | node left entry height right ihLeft ihRight =>
      rw [find?] at hfound
      rw [record]
      split at hfound
      · next hlt =>
        obtain ⟨hroot, hrecord⟩ := ihLeft hfound
        rw [if_pos hlt, hrecord]
        exact ⟨hroot, rfl⟩
      · next hge =>
        rw [if_neg hge]
        split at hfound
        · next hgt =>
          obtain ⟨hroot, hrecord⟩ := ihRight hfound
          rw [if_pos hgt, hrecord]
          exact ⟨hroot, rfl⟩
        · next hle =>
          obtain rfl := Option.some.inj hfound
          rw [if_neg hle, Derivation.record_of_old hold]
          exact ⟨Root.eq_of_not_lt hle hge, rfl⟩

end Triliteral.RootTree

namespace Triliteral.Engine

/-! ### Restored derivations -/

theorem mem_derivations_restoreRoot {restored : RestoredRoots}
    (hordered : restored.tree.Ordered) {record : RootRecord} {derivation : Derivation}
    (h : derivation ∈ (restoreRoot restored record).tree.derivations) :
    derivation ∈ restored.tree.derivations ∨ derivation ∈ record.derivations := by
  unfold restoreRoot at h
  split at h
  · exact .inl h
  · next root hroot =>
    split at h
    · exact .inl h
    · next tree hinsert =>
      have htree : tree = (restored.tree.insert root).2 := by rw [hinsert]
      subst htree
      rcases RootTree.mem_derivations_recordAll (hordered.insert root) h with hold | hnew
      · exact .inl ((RootTree.derivations_insert hordered root).mem_iff.mp hold)
      · exact .inr hnew

theorem mem_derivations_restoreRoots {records : List RootRecord} {derivation : Derivation}
    (h : derivation ∈ (restoreRoots records).tree.derivations) :
    ∃ record ∈ records, derivation ∈ record.derivations := by
  have hfold : ∀ restored : RestoredRoots, restored.tree.Ordered →
      restored.tree.DistinctWords →
      derivation ∈ (records.foldl restoreRoot restored).tree.derivations →
      derivation ∈ restored.tree.derivations ∨
        ∃ record ∈ records, derivation ∈ record.derivations := by
    clear h
    induction records with
    | nil =>
        intro restored _ _ h
        exact .inl h
    | cons record records ih =>
        intro restored hordered hwords h
        obtain ⟨hordered', hwords'⟩ := restoreRoot_invariant hordered hwords record
        rcases ih _ hordered' hwords' h with hfirst | ⟨later, hlater, hmem⟩
        · rcases mem_derivations_restoreRoot hordered hfirst with hold | hnew
          · exact .inl hold
          · exact .inr ⟨record, List.mem_cons_self, hnew⟩
        · exact .inr ⟨later, List.mem_cons_of_mem record hlater, hmem⟩
  rcases hfold ⟨.leaf, [], []⟩ RootTree.ordered_leaf RootTree.distinctWords_leaf h with
    hleaf | hrecord
  · exact absurd hleaf List.not_mem_nil
  · exact hrecord

end Triliteral.Engine
