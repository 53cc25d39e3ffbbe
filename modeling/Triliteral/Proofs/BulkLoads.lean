import Mathlib.Data.Finset.Card
import Triliteral.Proofs.HistoryGrowth
import Triliteral.Proofs.StoredRoots

/-!
Bulk loads. What is reported of a list of candidates is told by their number, their lengths and the
set of the roots among them, and so is the snapshot afterwards. The order of the candidates shapes
nothing but the tree.
-/

namespace Triliteral.Engine

variable {engine : Engine}

/-! ### Counts -/

theorem invalid_loadRoots (hordered : engine.tree.Ordered) (texts : List String) :
    (engine.loadRoots texts).1.invalid = texts.countP fun text => text.length ≠ 3 := by
  induction texts generalizing engine with
  | nil => rfl
  | cons text texts ih =>
      rw [loadRoots_cons, LoadReport.invalid_add, List.countP_cons]
      rcases loadRoots_singleton hordered text with
        ⟨hlength, hload⟩ | ⟨hstored, hload⟩ | ⟨root, rfl, hnew, hload⟩
      · rw [hload, ih hordered, if_pos (by simpa using hlength), Nat.add_comm]
      · obtain ⟨root, -, rfl⟩ := List.mem_map.mp hstored
        rw [hload, ih hordered, if_neg (by simp [root.length_text]), Nat.add_comm]
      · rw [hload, ih (hordered.grow hnew), if_neg (by simp [root.length_text]), Nat.add_comm]

theorem total_loadRoots (engine : Engine) (texts : List String) :
    (engine.loadRoots texts).1.total = texts.length := by
  induction texts generalizing engine with
  | nil => rfl
  | cons text texts ih =>
      have hone : (engine.loadRoots [text]).1.total = 1 := by
        rw [loadRoots, List.foldl_cons, List.foldl_nil, loadRoot]
        cases engine.addRoot text with
        | ok next => rfl
        | error fault => cases fault <;> rfl
      rw [loadRoots_cons, LoadReport.total_add, hone, ih, List.length_cons, Nat.add_comm]

theorem mem_listRoots_loadRoots (hordered : engine.tree.Ordered) {texts : List String}
    {text : String} :
    text ∈ (engine.loadRoots texts).2.listRoots ↔
      text ∈ engine.listRoots ∨ text.length = 3 ∧ text ∈ texts :=
  mem_listRoots_iff_of_added fun _ => mem_roots_loadRoots hordered

/-- The roots of a list of candidates that an engine does not have yet. -/
def newRoots (engine : Engine) (texts : List String) : Finset String :=
  texts.toFinset.filter fun text => text.length = 3 ∧ text ∉ engine.listRoots

theorem card_listRoots (hordered : engine.tree.Ordered) :
    engine.listRoots.toFinset.card = engine.rootCount := by
  have hnodup : engine.listRoots.Nodup := (pairwise_listRoots hordered).imp String.ne_of_lt
  rw [List.toFinset_card_of_nodup hnodup, rootCount_eq_length_listRoots]

/-- The roots afterwards are those before and the new ones, so that the new ones make the difference
of the counts. -/
theorem added_loadRoots (hordered : engine.tree.Ordered) (texts : List String) :
    (engine.loadRoots texts).1.added = (engine.newRoots texts).card := by
  have hunion : (engine.loadRoots texts).2.listRoots.toFinset =
      engine.listRoots.toFinset ∪ engine.newRoots texts := by
    ext text
    simp only [newRoots, List.mem_toFinset, Finset.mem_union, Finset.mem_filter,
      mem_listRoots_loadRoots hordered]
    tauto
  have hdisjoint : Disjoint engine.listRoots.toFinset (engine.newRoots texts) := by
    refine Finset.disjoint_right.mpr fun text hnew hold => ?_
    exact (Finset.mem_filter.mp hnew).2.2 (List.mem_toFinset.mp hold)
  have hcard : (engine.loadRoots texts).2.listRoots.toFinset.card =
      engine.rootCount + (engine.newRoots texts).card := by
    rw [hunion, Finset.card_union_of_disjoint hdisjoint, card_listRoots hordered]
  rw [card_listRoots (ordered_loadRoots hordered texts), rootCount_loadRoots hordered] at hcard
  exact Nat.add_left_cancel hcard

theorem loadRoots_listRoots (hordered : engine.tree.Ordered) {other : Engine}
    (hempty : other.tree = .leaf) :
    (other.loadRoots engine.listRoots).1 = ⟨engine.listRoots.length, 0, 0⟩ ∧
      (other.loadRoots engine.listRoots).2.listRoots = engine.listRoots := by
  have hother : other.tree.Ordered := by
    rw [hempty]
    exact List.Pairwise.nil
  have hnone : other.listRoots = [] := by
    rw [listRoots, hempty]
    rfl
  have hlength : ∀ text ∈ engine.listRoots, text.length = 3 := by
    intro text hmem
    obtain ⟨root, -, rfl⟩ := List.mem_map.mp hmem
    exact root.length_text
  constructor
  · have hinvalid : (other.loadRoots engine.listRoots).1.invalid = 0 := by
      rw [invalid_loadRoots hother, List.countP_eq_zero]
      intro text hmem
      simp [hlength text hmem]
    have hadded : (other.loadRoots engine.listRoots).1.added = engine.listRoots.length := by
      rw [added_loadRoots hother, newRoots, Finset.filter_true_of_mem, card_listRoots hordered,
        rootCount_eq_length_listRoots]
      intro text hmem
      simp [hnone, hlength text (List.mem_toFinset.mp hmem)]
    have htotal := other.total_loadRoots engine.listRoots
    rw [LoadReport.total] at htotal
    refine LoadReport.ext hadded ?_ hinvalid
    change _ = 0
    omega
  · refine listRoots_eq_of_mem_iff (ordered_loadRoots hother _) hordered fun text => ?_
    rw [mem_listRoots_loadRoots hother, hnone]
    simpa using hlength text

/-! ### Orders of the candidates -/

variable {texts texts' : List String}

theorem report_loadRoots_perm (hordered : engine.tree.Ordered) (hperm : texts.Perm texts') :
    (engine.loadRoots texts).1 = (engine.loadRoots texts').1 := by
  have hadded : (engine.loadRoots texts).1.added = (engine.loadRoots texts').1.added := by
    rw [added_loadRoots hordered, added_loadRoots hordered, newRoots, newRoots,
      List.toFinset_eq_of_perm _ _ hperm]
  have hinvalid : (engine.loadRoots texts).1.invalid = (engine.loadRoots texts').1.invalid := by
    rw [invalid_loadRoots hordered, invalid_loadRoots hordered, hperm.countP_eq]
  have htotal : (engine.loadRoots texts).1.total = (engine.loadRoots texts').1.total := by
    rw [total_loadRoots, total_loadRoots, hperm.length_eq]
  rw [LoadReport.total, LoadReport.total] at htotal
  exact LoadReport.ext hadded (by omega) hinvalid

theorem entries_loadRoots_perm (hordered : engine.tree.Ordered) (hperm : texts.Perm texts') :
    (engine.loadRoots texts).2.tree.entries = (engine.loadRoots texts').2.tree.entries := by
  have hsorted := RootTree.ordered_iff_entries.mp (ordered_loadRoots hordered texts)
  have hsorted' := RootTree.ordered_iff_entries.mp (ordered_loadRoots hordered texts')
  refine hsorted.eq_of_mem_iff hsorted' fun entry => ?_
  rw [mem_entries_loadRoots hordered, mem_entries_loadRoots hordered, hperm.mem_iff]

/-- Bulk loads are counted exactly, in whatever order the candidates come. After any run from any
start, the candidates that are not three letters long are reported as invalid, the different roots
among the other ones that are not stored yet as added, and all the rest as duplicates. A list in
another order is reported alike and leads to the same snapshot. Two lists loaded one after the other
lead to the same engine as both of them in one list, and their reports add up. -/
theorem bulk_loads_counted {p : Placeholders} {start : Engine} (hstart : Initial p start)
    (steps : List (Occasion × Request)) :
    let engine := (start.run steps).2
    (∀ texts : List String,
      let report := (engine.loadRoots texts).1
      report.invalid = (texts.filter fun text => text.length ≠ 3).length ∧
      report.added =
        (texts.toFinset.filter fun text => text.length = 3 ∧ text ∉ engine.listRoots).card ∧
      report.added + report.duplicates + report.invalid = texts.length) ∧
    (∀ texts texts' : List String, texts.Perm texts' →
      (engine.loadRoots texts).1 = (engine.loadRoots texts').1 ∧
      (engine.loadRoots texts).2.snapshot = (engine.loadRoots texts').2.snapshot) ∧
    ∀ texts later : List String,
      let first := engine.loadRoots texts
      let second := first.2.loadRoots later
      engine.loadRoots (texts ++ later) = (first.1 + second.1, second.2) := by
  intro engine
  have hordered : engine.tree.Ordered := (hstart.faithful.wellFormed.run steps).ordered
  refine ⟨fun texts => ⟨?_, added_loadRoots hordered texts, total_loadRoots engine texts⟩, ?_,
    engine.loadRoots_append⟩
  · rw [invalid_loadRoots hordered, List.countP_eq_length_filter]
  · intro texts texts' hperm
    refine ⟨report_loadRoots_perm hordered hperm, ?_⟩
    rw [snapshot, snapshot, entries_loadRoots_perm hordered hperm, registry_loadRoots,
      registry_loadRoots]

/-- One root is stored already, another one comes twice, and one candidate has two letters. The two
orders of the candidates leave trees of different shapes. -/
theorem bulk_loads_counted_mixed :
    let engine := ((withCatalog .standard).run [(Occasion.ofEpoch 0, .addRoot "كتب")]).2
    let texts := ["درس", "كتب", "كت", "علم", "درس", "فتح"]
    let texts' := ["فتح", "كت", "علم", "درس", "درس", "كتب"]
    (engine.loadRoots texts).1 = ⟨3, 2, 1⟩ ∧ (engine.loadRoots texts').1 = ⟨3, 2, 1⟩ ∧
      (engine.loadRoots texts).2.snapshot = (engine.loadRoots texts').2.snapshot ∧
      (engine.loadRoots texts).2.tree ≠ (engine.loadRoots texts').2.tree := by
  intro engine texts texts'
  have hperm : texts.Perm texts' := by decide
  obtain ⟨-, horders, -⟩ := bulk_loads_counted (.withCatalog (p := .standard))
    [(Occasion.ofEpoch 0, .addRoot "كتب")]
  obtain ⟨hreport, hsnapshot⟩ := horders texts texts' hperm
  have hmixed : (engine.loadRoots texts).1 = ⟨3, 2, 1⟩ := by decide +kernel
  exact ⟨hmixed, hreport.symm.trans hmixed, hsnapshot, by decide +kernel⟩

end Triliteral.Engine
