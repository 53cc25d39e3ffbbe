import Triliteral.Engine.Restore
import Triliteral.Proofs.TreeInsertions

/-!
Restoring roots from records. Whatever the records are, the tree is ordered and no root has a
word twice; the records of such a tree are all used and give its entries back.
-/

namespace Triliteral

namespace Derivation

theorem any_word_iff {history : List Derivation} {text : String} :
    (history.any fun earlier => earlier.word == text) = true ↔ text ∈ history.map word := by
  simp [List.any_eq_true, List.mem_map]

theorem record_of_old {derivation : Derivation} {history : List Derivation}
    (h : derivation.word ∈ history.map word) : derivation.record history = history :=
  if_pos (any_word_iff.mpr h)

theorem record_of_new {derivation : Derivation} {history : List Derivation}
    (h : derivation.word ∉ history.map word) :
    derivation.record history = history ++ [derivation] :=
  if_neg fun hany => h (any_word_iff.mp hany)

theorem nodup_record (derivation : Derivation) {history : List Derivation}
    (h : (history.map word).Nodup) : ((derivation.record history).map word).Nodup := by
  by_cases hnew : derivation.word ∈ history.map word
  · rwa [record_of_old hnew]
  · rw [record_of_new hnew, List.map_append, List.nodup_append]
    refine ⟨h, by simp, ?_⟩
    rintro a ha b hb rfl
    obtain rfl := List.mem_singleton.mp hb
    exact hnew ha

end Derivation

namespace RootEntry

/-- No word is recorded twice. -/
def DistinctWords (entry : RootEntry) : Prop :=
  (entry.derivations.map Derivation.word).Nodup

theorem DistinctWords.recordAt {entry : RootEntry} (h : entry.DistinctWords) (root : Root)
    (derivation : Derivation) : (entry.recordAt root derivation).DistinctWords := by
  unfold RootEntry.recordAt
  split
  · exact Derivation.nodup_record derivation h
  · exact h

end RootEntry

namespace RootTree

def DistinctWords (tree : RootTree) : Prop :=
  ∀ entry ∈ tree.entries, entry.DistinctWords

theorem distinctWords_leaf : leaf.DistinctWords := by
  intro entry h
  simp at h

theorem DistinctWords.insert {tree : RootTree} (hordered : tree.Ordered)
    (h : tree.DistinctWords) (root : Root) : (tree.insert root).2.DistinctWords := by
  rw [insert_eq hordered]
  split
  · exact h
  · next hnew =>
    intro entry hentry
    rw [entries_grow hordered hnew, List.mem_orderedInsert] at hentry
    rcases hentry with rfl | hentry
    · simp [RootEntry.DistinctWords]
    · exact h entry hentry

theorem DistinctWords.record {tree : RootTree} (hordered : tree.Ordered)
    (h : tree.DistinctWords) (root : Root) (derivation : Derivation) :
    (tree.record root derivation).DistinctWords := by
  intro entry hentry
  rw [entries_record hordered, List.mem_map] at hentry
  obtain ⟨old, hold, rfl⟩ := hentry
  exact (h old hold).recordAt root derivation

def recordAll (root : Root) (derivations : List Derivation) (tree : RootTree) : RootTree :=
  derivations.foldl (fun tree derivation => tree.record root derivation) tree

@[simp] theorem roots_recordAll (root : Root) (derivations : List Derivation)
    (tree : RootTree) : (recordAll root derivations tree).roots = tree.roots := by
  induction derivations generalizing tree with
  | nil => rfl
  | cons derivation derivations ih =>
      rw [recordAll, List.foldl_cons, ← recordAll, ih, roots_record]

theorem Ordered.recordAll {tree : RootTree} (hordered : tree.Ordered) (root : Root)
    (derivations : List Derivation) : (recordAll root derivations tree).Ordered := by
  rw [Ordered, roots_recordAll]
  exact hordered

theorem DistinctWords.recordAll {tree : RootTree} (hordered : tree.Ordered)
    (h : tree.DistinctWords) (root : Root) (derivations : List Derivation) :
    (recordAll root derivations tree).DistinctWords := by
  induction derivations generalizing tree with
  | nil => exact h
  | cons derivation derivations ih =>
      exact ih (hordered.record root derivation) (h.record hordered root derivation)

/-- Derivations with new and different words all go, in order, to the last entry if it is that
of the root. -/
theorem entries_recordAll_last {tree : RootTree} (hordered : tree.Ordered)
    {before : List RootEntry} {root : Root} {history derivations : List Derivation}
    (hentries : tree.entries = before ++ [⟨root, history⟩])
    (hwords : ((history ++ derivations).map Derivation.word).Nodup) :
    (recordAll root derivations tree).entries = before ++ [⟨root, history ++ derivations⟩] := by
  induction derivations generalizing tree history with
  | nil => simpa [recordAll] using hentries
  | cons derivation derivations ih =>
      have hbefore : root ∉ before.map RootEntry.root := by
        intro hmem
        obtain ⟨entry, hentry, hroot⟩ := List.mem_map.mp hmem
        have hsorted := ordered_iff_entries.mp hordered
        rw [hentries] at hsorted
        have hlt := (List.pairwise_append.mp hsorted).2.2 entry hentry _ List.mem_cons_self
        exact Root.ne_of_lt hlt hroot
      have hnew : derivation.word ∉ history.map Derivation.word := by
        intro hmem
        rw [List.map_append, List.nodup_append] at hwords
        exact hwords.2.2 _ hmem _ (by simp) rfl
      have hstep : (tree.record root derivation).entries =
          before ++ [⟨root, history ++ [derivation]⟩] := by
        rw [entries_record hordered, hentries, List.map_append,
          map_recordAt_of_not_mem derivation hbefore, List.map_singleton, RootEntry.recordAt,
          if_pos rfl, Derivation.record_of_new hnew]
      have := ih (hordered.record root derivation) hstep (by simpa using hwords)
      simpa [recordAll] using this

end RootTree

namespace Engine

open RootTree

theorem restoreRoot_invariant {restored : RestoredRoots} (hordered : restored.tree.Ordered)
    (hwords : restored.tree.DistinctWords) (record : RootRecord) :
    (restoreRoot restored record).tree.Ordered ∧
      (restoreRoot restored record).tree.DistinctWords := by
  unfold restoreRoot
  split
  · exact ⟨hordered, hwords⟩
  · next root hroot =>
    have hinsert := hordered.insert root
    have hinsertWords := hwords.insert hordered root
    split
    · exact ⟨hordered, hwords⟩
    · next tree htree =>
      rw [htree] at hinsert hinsertWords
      exact ⟨hinsert.recordAll root record.derivations,
        hinsertWords.recordAll hinsert root record.derivations⟩

theorem restoreRoots_invariant (records : List RootRecord) :
    (restoreRoots records).tree.Ordered ∧ (restoreRoots records).tree.DistinctWords := by
  have hfold : ∀ restored : RestoredRoots, restored.tree.Ordered →
      restored.tree.DistinctWords →
      (records.foldl restoreRoot restored).tree.Ordered ∧
        (records.foldl restoreRoot restored).tree.DistinctWords := by
    induction records with
    | nil =>
        intro restored hordered hwords
        exact ⟨hordered, hwords⟩
    | cons record records ih =>
        intro restored hordered hwords
        obtain ⟨hordered', hwords'⟩ := restoreRoot_invariant hordered hwords record
        exact ih _ hordered' hwords'
  exact hfold ⟨.leaf, [], []⟩ ordered_leaf distinctWords_leaf

theorem restoreRoot_toRecord {restored : RestoredRoots} (hordered : restored.tree.Ordered)
    {entry : RootEntry} (hlast : ∀ other ∈ restored.tree.entries, other.Before entry)
    (hwords : entry.DistinctWords) :
    ∃ tree : RootTree, restoreRoot restored entry.toRecord = { restored with tree } ∧
      tree.Ordered ∧ tree.entries = restored.tree.entries ++ [entry] := by
  have hnew : entry.root ∉ restored.tree.roots := by
    intro hmem
    obtain ⟨other, hother, hroot⟩ := List.mem_map.mp hmem
    exact Root.ne_of_lt (hlast other hother) hroot
  have hgrow : (grow entry.root restored.tree).entries =
      restored.tree.entries ++ [⟨entry.root, []⟩] := by
    have hbefore : ∀ other ∈ restored.tree.entries,
        ¬ RootEntry.Before ⟨entry.root, []⟩ other :=
      fun other hother => Root.not_lt_of_lt (hlast other hother)
    rw [entries_grow hordered hnew]
    simpa using @orderedInsert_append_of_not_before _ _ [] hbefore
  refine ⟨recordAll entry.root entry.derivations (grow entry.root restored.tree), ?_, ?_, ?_⟩
  · simp only [restoreRoot, RootEntry.toRecord, Root.ofText?_text, insert_eq hordered,
      if_neg hnew]
    rfl
  · exact (hordered.grow hnew).recordAll entry.root entry.derivations
  · simpa using entries_recordAll_last (hordered.grow hnew) hgrow hwords

/-- The records of ascending entries without repeated words are all used and put the entries, in
order, behind those that are there. -/
theorem foldl_restoreRoot_toRecord {entries : List RootEntry} {restored : RestoredRoots}
    (hordered : restored.tree.Ordered)
    (hsorted : (restored.tree.entries ++ entries).Pairwise RootEntry.Before)
    (hwords : ∀ entry ∈ entries, entry.DistinctWords) :
    ((entries.map RootEntry.toRecord).foldl restoreRoot restored).tree.entries =
        restored.tree.entries ++ entries ∧
      ((entries.map RootEntry.toRecord).foldl restoreRoot restored).invalid = restored.invalid ∧
      ((entries.map RootEntry.toRecord).foldl restoreRoot restored).duplicates =
        restored.duplicates := by
  induction entries generalizing restored with
  | nil => simp
  | cons entry entries ih =>
      have hlast : ∀ other ∈ restored.tree.entries, other.Before entry := by
        intro other hother
        exact (List.pairwise_append.mp hsorted).2.2 other hother entry List.mem_cons_self
      obtain ⟨tree, hstep, hordered', hentries⟩ :=
        restoreRoot_toRecord hordered hlast (hwords entry List.mem_cons_self)
      have hwords' : ∀ other ∈ entries, other.DistinctWords := by
        intro other hother
        exact hwords other (List.mem_cons_of_mem entry hother)
      have hrest := @ih { restored with tree } hordered' (by simpa [hentries] using hsorted)
        hwords'
      simpa [hstep, hentries] using hrest

theorem restoreRoots_map_toRecord {entries : List RootEntry}
    (hsorted : entries.Pairwise RootEntry.Before)
    (hwords : ∀ entry ∈ entries, entry.DistinctWords) :
    (restoreRoots (entries.map RootEntry.toRecord)).tree.entries = entries ∧
      (restoreRoots (entries.map RootEntry.toRecord)).invalid = [] ∧
      (restoreRoots (entries.map RootEntry.toRecord)).duplicates = [] :=
  foldl_restoreRoot_toRecord ordered_leaf hsorted hwords

/-- The records of an ordered tree without repeated words are all used and give its entries
back. -/
theorem restoreRoots_toRecord {tree : RootTree} (hordered : tree.Ordered)
    (hwords : tree.DistinctWords) :
    (restoreRoots (tree.entries.map RootEntry.toRecord)).tree.entries = tree.entries ∧
      (restoreRoots (tree.entries.map RootEntry.toRecord)).invalid = [] ∧
      (restoreRoots (tree.entries.map RootEntry.toRecord)).duplicates = [] :=
  restoreRoots_map_toRecord (ordered_iff_entries.mp hordered) hwords

end Engine

end Triliteral
