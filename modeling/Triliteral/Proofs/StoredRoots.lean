import Triliteral.Proofs.ConsecutiveLoads
import Triliteral.Proofs.EngineInvariants
import Triliteral.Proofs.TreeBalance

/-!
The roots of an engine. Adding roots stores those that are new and counts them, and the tree stays
balanced whatever is requested.
-/

namespace Triliteral.Engine

variable {engine next : Engine}

/-! ### Adding roots -/

theorem addRoot_text (hordered : engine.tree.Ordered) (root : Root) :
    engine.addRoot root.text =
      if root ∈ engine.tree.roots then .error (.duplicateRoot root.text)
      else .ok { engine with tree := RootTree.grow root engine.tree } := by
  rw [addRoot, Root.ofText?_text]
  simp only [RootTree.insert_eq hordered]
  by_cases hmem : root ∈ engine.tree.roots
  · rw [if_pos hmem, if_pos hmem]
  · rw [if_neg hmem, if_neg hmem]

theorem rootCount_addRoot (hordered : engine.tree.Ordered) {text : String}
    (h : engine.addRoot text = .ok next) :
    next.tree.Ordered ∧ next.rootCount = engine.rootCount + 1 := by
  unfold addRoot at h
  split at h
  · cases h
  · next root hroot =>
    have houtcome := RootTree.insert_outcome hordered root
    have hsize := RootTree.size_insert hordered root
    have hinserted := hordered.insert root
    split at h
    · next tree hinsert =>
      obtain rfl := Except.ok.inj h
      rw [hinsert] at houtcome hsize hinserted
      refine ⟨hinserted, ?_⟩
      split at houtcome
      · cases houtcome
      · next hnew =>
        rw [if_neg hnew] at hsize
        exact hsize
    · cases h

/-- What becomes of one candidate: it is no root, or it is stored already, or it is added. -/
theorem loadRoots_singleton (hordered : engine.tree.Ordered) (text : String) :
    text.length ≠ 3 ∧ engine.loadRoots [text] = (⟨0, 0, 1⟩, engine) ∨
    text ∈ engine.listRoots ∧ engine.loadRoots [text] = (⟨0, 1, 0⟩, engine) ∨
    ∃ root, root.text = text ∧ root ∉ engine.tree.roots ∧
      engine.loadRoots [text] =
        (⟨1, 0, 0⟩, { engine with tree := RootTree.grow root engine.tree }) := by
  rw [loadRoots, List.foldl_cons, List.foldl_nil, loadRoot]
  cases hroot : Root.ofText? text with
  | none =>
      have hadd : engine.addRoot text = .error (.invalidRoot text) := by rw [addRoot, hroot]
      rw [hadd]
      exact .inl ⟨Root.ofText?_eq_none_iff.mp hroot, rfl⟩
  | some root =>
      obtain rfl : text = root.text := Root.ofText?_eq_some_iff.mp hroot
      rw [addRoot_text hordered]
      by_cases hstored : root ∈ engine.tree.roots
      · rw [if_pos hstored]
        exact .inr (.inl ⟨List.mem_map_of_mem hstored, rfl⟩)
      · rw [if_neg hstored]
        exact .inr (.inr ⟨root, rfl, hstored, rfl⟩)

theorem loadRoots_preserves {P : Engine → Prop}
    (hinsert : ∀ (engine : Engine) (root : Root), P engine →
      P { engine with tree := (engine.tree.insert root).2 })
    (hengine : P engine) (texts : List String) : P (engine.loadRoots texts).2 := by
  have hupdate : ∀ before after, Update (.loadRoots texts) before after → P before → P after := by
    intro before after hupdate hbefore
    cases hupdate with
    | insertRoot _ _ root => exact hinsert before root hbefore
  exact perform_preserves hupdate (Occasion.ofEpoch 0) hengine

theorem ordered_loadRoots (hordered : engine.tree.Ordered) (texts : List String) :
    (engine.loadRoots texts).2.tree.Ordered :=
  @loadRoots_preserves engine (fun engine => engine.tree.Ordered)
    (fun _ root hordered => hordered.insert root) hordered texts

theorem registry_loadRoots (engine : Engine) (texts : List String) :
    (engine.loadRoots texts).2.registry = engine.registry :=
  @loadRoots_preserves engine (fun next => next.registry = engine.registry)
    (fun _ _ hregistry => hregistry) rfl texts

theorem rootCount_loadRoots (hordered : engine.tree.Ordered) (texts : List String) :
    (engine.loadRoots texts).2.rootCount =
      engine.rootCount + (engine.loadRoots texts).1.added := by
  induction texts generalizing engine with
  | nil => rfl
  | cons text texts ih =>
      rw [loadRoots_cons, LoadReport.added_add]
      rcases loadRoots_singleton hordered text with
        ⟨-, hload⟩ | ⟨-, hload⟩ | ⟨root, -, hnew, hload⟩
      · rw [hload, ih hordered, Nat.zero_add]
      · rw [hload, ih hordered, Nat.zero_add]
      · have hsize := RootTree.size_insert hordered root
        rw [RootTree.insert_eq hordered, if_neg hnew, if_neg hnew] at hsize
        rw [hload, ih (hordered.grow hnew), rootCount, hsize, rootCount, Nat.add_assoc]

/-- Loading puts the roots among the texts that are new, without derivations, to the entries. -/
theorem mem_entries_loadRoots (hordered : engine.tree.Ordered) {texts : List String}
    {entry : RootEntry} :
    entry ∈ (engine.loadRoots texts).2.tree.entries ↔
      entry ∈ engine.tree.entries ∨
        entry.derivations = [] ∧ entry.root ∉ engine.tree.roots ∧ entry.root.text ∈ texts := by
  induction texts generalizing engine with
  | nil => simp [loadRoots_nil]
  | cons text texts ih =>
      rw [loadRoots_cons, List.mem_cons]
      rcases loadRoots_singleton hordered text with
        ⟨hlength, hload⟩ | ⟨hstored, hload⟩ | ⟨root, rfl, hnew, hload⟩
      · have hother : entry.root.text ≠ text := fun heq => hlength (heq ▸ entry.root.length_text)
        rw [hload, ih hordered]
        simp only [hother, false_or]
      · have hother : entry.root ∉ engine.tree.roots → entry.root.text ≠ text := by
          rintro hentry rfl
          obtain ⟨root, hroot, heq⟩ := List.mem_map.mp hstored
          exact hentry (Root.text_injective heq ▸ hroot)
        rw [hload, ih hordered]
        exact or_congr_right (and_congr_right fun _ => and_congr_right fun hentry =>
          (or_iff_right (hother hentry)).symm)
      · have hsame : entry = ⟨root, []⟩ ↔ entry.derivations = [] ∧ entry.root = root := by
          obtain ⟨other, derivations⟩ := entry
          simp only [RootEntry.mk.injEq, and_comm]
        have htext : entry.root.text = root.text ↔ entry.root = root :=
          ⟨fun heq => Root.text_injective heq, congrArg Root.text⟩
        rw [hload, ih (hordered.grow hnew), RootTree.entries_grow hordered hnew,
          List.mem_orderedInsert, RootTree.mem_roots_grow hordered hnew, hsame, htext]
        by_cases heq : entry.root = root
        · simp [heq, hnew, or_comm]
        · simp [heq]

theorem mem_roots_loadRoots (hordered : engine.tree.Ordered) {texts : List String} {root : Root} :
    root ∈ (engine.loadRoots texts).2.tree.roots ↔
      root ∈ engine.tree.roots ∨ root.text ∈ texts := by
  simp only [RootTree.roots_eq_map_entries, List.mem_map, mem_entries_loadRoots hordered]
  constructor
  · rintro ⟨entry, hentry | ⟨-, -, htext⟩, rfl⟩
    · exact .inl ⟨entry, hentry, rfl⟩
    · exact .inr htext
  · rintro (⟨entry, hentry, rfl⟩ | htext)
    · exact ⟨entry, .inl hentry, rfl⟩
    · by_cases hstored : root ∈ engine.tree.roots
      · obtain ⟨entry, hentry, rfl⟩ := List.mem_map.mp hstored
        exact ⟨entry, .inl hentry, rfl⟩
      · exact ⟨⟨root, []⟩, .inr ⟨rfl, fun h => hstored (List.mem_map.mpr h), htext⟩, rfl⟩

/-! ### Balance -/

theorem balanced_restoreRoot {restored : RestoredRoots} (h : restored.tree.Balanced)
    (record : RootRecord) : (restoreRoot restored record).tree.Balanced := by
  have hrecords : ∀ (root : Root) (derivations : List Derivation) (tree : RootTree),
      tree.Balanced → (RootTree.recordAll root derivations tree).Balanced := by
    intro root derivations
    induction derivations with
    | nil => exact fun _ htree => htree
    | cons derivation derivations ih => exact fun tree htree => ih _ (htree.record root derivation)
  unfold restoreRoot
  split
  · exact h
  · next root hroot =>
    have hinsert := h.insert root
    split
    · exact h
    · next tree htree =>
      rw [htree] at hinsert
      exact hrecords root record.derivations tree hinsert

theorem balanced_restoreRoots (records : List RootRecord) :
    (restoreRoots records).tree.Balanced := by
  have hfold : ∀ restored : RestoredRoots, restored.tree.Balanced →
      (records.foldl restoreRoot restored).tree.Balanced := by
    induction records with
    | nil => exact fun _ h => h
    | cons record records ih => exact fun restored h => ih _ (balanced_restoreRoot h record)
  exact hfold ⟨.leaf, [], []⟩ RootTree.balanced_leaf

theorem balanced_update {request : Request} {before after : Engine}
    (h : Update request before after) (hbefore : before.tree.Balanced) :
    after.tree.Balanced := by
  cases h with
  | insertRoot _ _ root => exact hbefore.insert root
  | addDynamic | addExplicit | modifyScheme | removeScheme => exact hbefore
  | generate | validate => exact hbefore.record _ _
  | reload => exact balanced_restoreRoots _

/-- Whatever is requested, the tree of roots stays balanced. -/
theorem Initial.balanced_run {p : Placeholders} {start : Engine} (hstart : Initial p start)
    (steps : List (Occasion × Request)) : (start.run steps).2.tree.Balanced := by
  have hbalanced : start.tree.Balanced := by
    cases hstart with
    | empty | withCatalog => exact RootTree.balanced_leaf
    | restored snapshot => exact balanced_restoreRoots snapshot.roots
  have hupdate : ∀ request : Request, True → ∀ before after, Update request before after →
      before.tree.Balanced → after.tree.Balanced :=
    fun _ _ _ _ hupdate hbefore => balanced_update hupdate hbefore
  exact run_preserves (P := fun engine => engine.tree.Balanced) hupdate (fun _ _ => trivial)
    hbalanced

end Triliteral.Engine
