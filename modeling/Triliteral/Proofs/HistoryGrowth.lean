import Mathlib.Data.List.Sort
import Triliteral.Proofs.EngineInvariants
import Triliteral.Proofs.TreeDerivations

/-!
Histories only grow. No request takes a root away or changes a derivation that is recorded on
it; what a run records comes after what was recorded before, one derivation at a time.
-/

namespace Triliteral

theorem Derivation.record_eq_append (derivation : Derivation) (history : List Derivation) :
    ∃ new, derivation.record history = history ++ new ∧ new.length ≤ 1 ∧ new ⊆ [derivation] := by
  by_cases hold : derivation.word ∈ history.map word
  · exact ⟨[], by rw [record_of_old hold, List.append_nil], Nat.zero_le 1, List.nil_subset _⟩
  · exact ⟨[derivation], record_of_new hold, Nat.le_refl 1, List.Subset.refl _⟩

namespace RootTree

variable {tree : RootTree}

theorem Ordered.entries_subset_insert (hordered : tree.Ordered) (root : Root) :
    tree.entries ⊆ (tree.insert root).2.entries := by
  rw [insert_eq hordered]
  split
  · exact List.Subset.refl _
  · next hnew =>
    intro entry hentry
    rw [entries_grow hordered hnew]
    exact (List.mem_orderedInsert _).mpr (.inr hentry)

theorem Ordered.mem_entries_insert (hordered : tree.Ordered) {root : Root} {entry : RootEntry}
    (h : entry ∈ (tree.insert root).2.entries) : entry ∈ tree.entries ∨ entry.derivations = [] := by
  rw [insert_eq hordered] at h
  split at h
  · exact .inl h
  · next hnew =>
    rw [entries_grow hordered hnew] at h
    rcases (List.mem_orderedInsert _).mp h with rfl | hold
    · exact .inr rfl
    · exact .inl hold

end RootTree

def Request.recordsOn? : Request → Option String
  | .generate root _ | .validate root _ => some root
  | _ => none

namespace Engine

variable {engine next : Engine}

/-! ### Histories -/

theorem derivations_eq_ok_iff (hordered : engine.tree.Ordered) {text : String}
    {history : List Derivation} :
    engine.derivations text = .ok history ↔
      ∃ entry ∈ engine.tree.entries, entry.root.text = text ∧ entry.derivations = history := by
  constructor
  · intro h
    cases hfound : engine.findRoot text with
    | error fault => simp [derivations, hfound, Except.map] at h
    | ok node =>
        obtain ⟨hnode, htext⟩ := (findRoot_eq_ok_iff hordered).mp hfound
        rw [derivations, hfound] at h
        exact ⟨node.entry, List.mem_map_of_mem hnode, htext, Except.ok.inj h⟩
  · rintro ⟨entry, hentry, htext, rfl⟩
    obtain ⟨node, hnode, rfl⟩ := List.mem_map.mp hentry
    rw [derivations, (findRoot_eq_ok_iff hordered).mpr ⟨hnode, htext⟩]
    rfl

/-- What is recorded on the root with a text, oldest first; nothing if no such root is stored. -/
def history (engine : Engine) (text : String) : List Derivation :=
  match engine.derivations text with
  | .ok history => history
  | .error _ => []

theorem mem_listRoots_iff_entries {text : String} :
    text ∈ engine.listRoots ↔ ∃ entry ∈ engine.tree.entries, entry.root.text = text := by
  simp [listRoots, RootTree.roots]

theorem pairwise_listRoots (hordered : engine.tree.Ordered) :
    engine.listRoots.Pairwise fun a b => a < b :=
  List.pairwise_map.mpr (hordered.imp Root.text_lt_text_iff.mpr)

theorem rootCount_eq_length_listRoots (engine : Engine) :
    engine.rootCount = engine.listRoots.length := by
  rw [rootCount, RootTree.size_eq_length_roots, listRoots, List.length_map]

theorem mem_listRoots_iff_of_added {texts : List String} {text : String}
    (h : ∀ root : Root, root ∈ next.tree.roots ↔ root ∈ engine.tree.roots ∨ root.text ∈ texts) :
    text ∈ next.listRoots ↔ text ∈ engine.listRoots ∨ text.length = 3 ∧ text ∈ texts := by
  simp only [listRoots, List.mem_map, h, or_and_right, exists_or]
  refine or_congr_right ⟨?_, ?_⟩
  · rintro ⟨root, hmem, rfl⟩
    exact ⟨root.length_text, hmem⟩
  · rintro ⟨hlength, hmem⟩
    obtain ⟨root, rfl⟩ := Root.exists_text_eq_iff.mpr hlength
    exact ⟨root, hmem, rfl⟩

theorem listRoots_eq_of_mem_iff (hengine : engine.tree.Ordered) (hnext : next.tree.Ordered)
    (h : ∀ text, text ∈ engine.listRoots ↔ text ∈ next.listRoots) :
    engine.listRoots = next.listRoots := by
  have hsorted := pairwise_listRoots hengine
  have hsorted' := pairwise_listRoots hnext
  refine List.Perm.eq_of_pairwise ?_ hsorted hsorted' ?_
  · intro a b _ _ hab hba
    exact absurd (String.lt_trans hab hba) (String.lt_irrefl a)
  · exact (List.perm_ext_iff_of_nodup (hsorted.imp String.ne_of_lt)
      (hsorted'.imp String.ne_of_lt)).mpr h

theorem history_of_mem (hordered : engine.tree.Ordered) {entry : RootEntry}
    (hentry : entry ∈ engine.tree.entries) :
    engine.history entry.root.text = entry.derivations := by
  rw [history, (derivations_eq_ok_iff hordered).mpr ⟨entry, hentry, rfl, rfl⟩]

theorem history_of_not_mem (hordered : engine.tree.Ordered) {text : String}
    (htext : text ∉ engine.listRoots) : engine.history text = [] := by
  rw [history]
  split
  · next history hhistory =>
    obtain ⟨entry, hentry, rfl, -⟩ := (derivations_eq_ok_iff hordered).mp hhistory
    exact absurd (List.mem_map_of_mem (List.mem_map_of_mem hentry)) htext
  · rfl

theorem mem_derivations_iff_history (hordered : engine.tree.Ordered) {derivation : Derivation} :
    derivation ∈ engine.tree.derivations ↔ ∃ text, derivation ∈ engine.history text := by
  rw [RootTree.mem_derivations]
  constructor
  · rintro ⟨entry, hentry, hmem⟩
    exact ⟨entry.root.text, by rwa [history_of_mem hordered hentry]⟩
  · rintro ⟨text, hmem⟩
    by_cases hstored : text ∈ engine.listRoots
    · obtain ⟨entry, hentry, rfl⟩ := mem_listRoots_iff_entries.mp hstored
      exact ⟨entry, hentry, by rwa [← history_of_mem hordered hentry]⟩
    · rw [history_of_not_mem hordered hstored] at hmem
      exact absurd hmem List.not_mem_nil

theorem derivations_eq_ok_iff_history (hordered : engine.tree.Ordered) {text : String}
    {old : List Derivation} :
    engine.derivations text = .ok old ↔ text ∈ engine.listRoots ∧ engine.history text = old := by
  rw [derivations_eq_ok_iff hordered, mem_listRoots_iff_entries]
  constructor
  · rintro ⟨entry, hentry, rfl, rfl⟩
    exact ⟨⟨entry, hentry, rfl⟩, history_of_mem hordered hentry⟩
  · rintro ⟨⟨entry, hentry, rfl⟩, rfl⟩
    exact ⟨entry, hentry, rfl, (history_of_mem hordered hentry).symm⟩

theorem history_congr (hordered : engine.tree.Ordered) (hnext : next.tree.Ordered)
    (hkept : engine.tree.entries ⊆ next.tree.entries)
    (hadded : ∀ entry ∈ next.tree.entries, entry ∈ engine.tree.entries ∨ entry.derivations = [])
    (text : String) : next.history text = engine.history text := by
  by_cases hstored : text ∈ engine.listRoots
  · obtain ⟨entry, hentry, rfl⟩ := mem_listRoots_iff_entries.mp hstored
    rw [history_of_mem hordered hentry, history_of_mem hnext (hkept hentry)]
  · rw [history_of_not_mem hordered hstored]
    by_cases hstored' : text ∈ next.listRoots
    · obtain ⟨entry, hentry, rfl⟩ := mem_listRoots_iff_entries.mp hstored'
      rw [history_of_mem hnext hentry]
      rcases hadded entry hentry with hold | hempty
      · exact absurd (mem_listRoots_iff_entries.mpr ⟨entry, hold, rfl⟩) hstored
      · exact hempty
    · exact history_of_not_mem hnext hstored'

/-- The roots of an engine are all in a later one, and have the same histories there. -/
structure KeepsHistories (engine next : Engine) : Prop where
  listRoots_subset : engine.listRoots ⊆ next.listRoots
  history_eq : ∀ text, next.history text = engine.history text

theorem KeepsHistories.refl (engine : Engine) : engine.KeepsHistories engine :=
  ⟨List.Subset.refl _, fun _ => rfl⟩

theorem KeepsHistories.trans {last : Engine} (h : engine.KeepsHistories next)
    (hlast : next.KeepsHistories last) : engine.KeepsHistories last :=
  ⟨List.Subset.trans h.listRoots_subset hlast.listRoots_subset,
    fun text => (hlast.history_eq text).trans (h.history_eq text)⟩

theorem keepsHistories_of_entries (hordered : engine.tree.Ordered) (hnext : next.tree.Ordered)
    (hkept : engine.tree.entries ⊆ next.tree.entries)
    (hadded : ∀ entry ∈ next.tree.entries,
      entry ∈ engine.tree.entries ∨ entry.derivations = []) :
    engine.KeepsHistories next := by
  refine ⟨?_, history_congr hordered hnext hkept hadded⟩
  intro text htext
  obtain ⟨entry, hentry, rfl⟩ := mem_listRoots_iff_entries.mp htext
  exact mem_listRoots_iff_entries.mpr ⟨entry, hkept hentry, rfl⟩

/-- Every root of an engine is in a later one, where its history begins with the old one. At most
one derivation more is in it, and only in that of the named root. -/
structure AppendsOn (named : Option String) (time : Instant) (engine next : Engine) : Prop where
  listRoots_subset : engine.listRoots ⊆ next.listRoots
  history_append : ∀ text, ∃ new, next.history text = engine.history text ++ new ∧
    new.length ≤ 1 ∧ ∀ derivation ∈ new,
      derivation.recordedAt = time ∧ text ∈ engine.listRoots ∧ named = some text

theorem KeepsHistories.appendsOn (h : engine.KeepsHistories next) (named : Option String)
    (time : Instant) : AppendsOn named time engine next := by
  refine ⟨h.listRoots_subset, fun text => ⟨[], ?_, Nat.zero_le 1, List.forall_mem_nil _⟩⟩
  rw [h.history_eq, List.append_nil]

theorem history_record (hordered : engine.tree.Ordered) {root : Root} {derivation : Derivation}
    (htree : next.tree = engine.tree.record root derivation) (text : String) :
    next.history text =
      if text = root.text ∧ text ∈ engine.listRoots then derivation.record (engine.history text)
      else engine.history text := by
  have hnext : next.tree.Ordered := htree ▸ hordered.record root derivation
  have hroots : next.listRoots = engine.listRoots := by
    rw [listRoots, listRoots, htree, RootTree.roots_record]
  by_cases hstored : text ∈ engine.listRoots
  · obtain ⟨entry, hentry, rfl⟩ := mem_listRoots_iff_entries.mp hstored
    have hentry' : entry.recordAt root derivation ∈ next.tree.entries := by
      rw [htree, RootTree.entries_record hordered]
      exact List.mem_map_of_mem hentry
    have hhistory := history_of_mem hnext hentry'
    rw [RootEntry.root_recordAt] at hhistory
    rw [hhistory, history_of_mem hordered hentry]
    by_cases hroot : entry.root = root
    · rw [if_pos ⟨congrArg Root.text hroot, hstored⟩, RootEntry.recordAt, if_pos hroot]
    · rw [if_neg fun h => hroot (Root.text_injective h.1),
        RootEntry.recordAt_of_ne derivation hroot]
  · rw [if_neg fun h => hstored h.2, history_of_not_mem hordered hstored,
      history_of_not_mem hnext (hroots ▸ hstored)]

theorem appendsOn_record (hordered : engine.tree.Ordered) {root : Root} {derivation : Derivation}
    (htree : next.tree = engine.tree.record root derivation) :
    AppendsOn (some root.text) derivation.recordedAt engine next := by
  have hroots : next.listRoots = engine.listRoots := by
    rw [listRoots, listRoots, htree, RootTree.roots_record]
  refine ⟨hroots ▸ List.Subset.refl _, fun text => ?_⟩
  rw [history_record hordered htree]
  split
  · next hchanged =>
    obtain ⟨rfl, hstored⟩ := hchanged
    obtain ⟨new, hnew, hlength, honly⟩ := derivation.record_eq_append (engine.history root.text)
    refine ⟨new, hnew, hlength, fun added hadded => ?_⟩
    obtain rfl := List.mem_singleton.mp (honly hadded)
    exact ⟨rfl, hstored, rfl⟩
  · exact ⟨[], (List.append_nil _).symm, Nat.zero_le 1, List.forall_mem_nil _⟩

theorem WellFormed.keepsHistories_update {request : Request} {before after : Engine}
    (hbefore : before.WellFormed) (h : Update request before after)
    (hrecords : request.recordsOn? = none) : before.KeepsHistories after := by
  have hafter := hbefore.update h
  cases h with
  | insertRoot _ _ root =>
      refine keepsHistories_of_entries hbefore.ordered hafter.ordered ?_ ?_
      · exact hbefore.ordered.entries_subset_insert root
      · exact fun entry hentry => hbefore.ordered.mem_entries_insert hentry
  | addDynamic | addExplicit | modifyScheme | removeScheme =>
      exact ⟨List.Subset.refl _, fun _ => rfl⟩
  | generate | validate => exact absurd hrecords (Option.some_ne_none _)
  | reload _ p =>
      have hentries := hbefore.entries_restore p
      refine keepsHistories_of_entries hbefore.ordered hafter.ordered ?_ ?_
      · rw [hentries]
        exact List.Subset.refl _
      · rw [hentries]
        exact fun entry hentry => .inl hentry

theorem WellFormed.keepsHistories_perform (hengine : engine.WellFormed) (now : Occasion)
    {request : Request} (hrecords : request.recordsOn? = none) :
    engine.KeepsHistories (engine.perform now request).2 := by
  refine (perform_preserves (P := fun after => after.WellFormed ∧ engine.KeepsHistories after)
    ?_ now ⟨hengine, .refl engine⟩).2
  rintro before after hupdate ⟨hbefore, hkeeps⟩
  exact ⟨hbefore.update hupdate, hkeeps.trans (hbefore.keepsHistories_update hupdate hrecords)⟩

theorem appendsOn_settle {α : Type} {answer : α → Response} {named : Option String} {time : Instant}
    {outcome : Except Fault (α × Engine)}
    (h : ∀ value next, outcome = .ok (value, next) → AppendsOn named time engine next) :
    AppendsOn named time engine (engine.settle answer outcome).2 := by
  cases outcome with
  | error fault => exact (KeepsHistories.refl engine).appendsOn named time
  | ok result => exact h result.1 result.2 rfl

theorem appendsOn_of_findRoot (hordered : engine.tree.Ordered) {text : String}
    {node : RootTree.Node} (hfound : engine.findRoot text = .ok node) {derivation : Derivation}
    (htree : next.tree = engine.tree.record node.entry.root derivation) :
    AppendsOn (some text) derivation.recordedAt engine next := by
  obtain ⟨-, rfl⟩ := (findRoot_eq_ok_iff hordered).mp hfound
  exact appendsOn_record hordered htree

theorem WellFormed.appendsOn_perform (hengine : engine.WellFormed) (now : Occasion)
    (request : Request) :
    AppendsOn request.recordsOn? now.time engine (engine.perform now request).2 := by
  cases request with
  | generate text name =>
      apply appendsOn_settle
      intro word next houtcome
      rcases generate_eq_ok houtcome with rfl | ⟨node, scheme, hfound, -, -, hnext⟩
      · exact (KeepsHistories.refl next).appendsOn _ now.time
      · exact appendsOn_of_findRoot hengine.ordered hfound (congrArg Engine.tree hnext)
  | validate text word =>
      apply appendsOn_settle
      intro names next houtcome
      rcases validate_eq_ok houtcome with ⟨-, rfl⟩ | ⟨node, hfound, -, -, hnext⟩
      · exact (KeepsHistories.refl next).appendsOn _ now.time
      · exact appendsOn_of_findRoot hengine.ordered hfound (congrArg Engine.tree hnext)
  | _ => exact (hengine.keepsHistories_perform now rfl).appendsOn _ _

theorem WellFormed.prefix_history_run (hengine : engine.WellFormed)
    (steps : List (Occasion × Request)) :
    engine.listRoots ⊆ (engine.run steps).2.listRoots ∧
      ∀ text, engine.history text <+: (engine.run steps).2.history text := by
  induction steps generalizing engine with
  | nil => exact ⟨List.Subset.refl _, fun text => List.prefix_refl _⟩
  | cons step rest ih =>
      obtain ⟨now, request⟩ := step
      obtain ⟨hroots, hhistory⟩ := hengine.appendsOn_perform now request
      obtain ⟨hroots', hhistory'⟩ := ih (hengine.perform now request)
      refine ⟨List.Subset.trans hroots hroots', fun text => List.IsPrefix.trans ?_ (hhistory' text)⟩
      obtain ⟨new, hnew, -⟩ := hhistory text
      exact ⟨new, hnew.symm⟩

/-- A run keeps the history of every root and puts what it records after it. -/
theorem WellFormed.derivations_run (hengine : engine.WellFormed) {text : String}
    {old : List Derivation} (h : engine.derivations text = .ok old)
    (steps : List (Occasion × Request)) :
    ∃ new, (engine.run steps).2.derivations text = .ok (old ++ new) := by
  obtain ⟨hstored, rfl⟩ := (derivations_eq_ok_iff_history hengine.ordered).mp h
  obtain ⟨hroots, hhistory⟩ := hengine.prefix_history_run steps
  obtain ⟨new, hnew⟩ := hhistory text
  exact ⟨new, (derivations_eq_ok_iff_history (hengine.run steps).ordered).mpr
    ⟨hroots hstored, hnew.symm⟩⟩

/-- Histories are append-only. After any run from any start, also from a snapshot that repeats
words, every root is found with what is recorded at its node, no word twice. Whatever is then
requested and however it is answered, every root stays and every history is kept as it is; at
most one derivation comes after it, with the time of the request, and only on a root that was
there and that a request to generate or to validate a word names. -/
theorem history_append_only {p : Placeholders} {start : Engine} (hstart : Initial p start)
    (steps : List (Occasion × Request)) (now : Occasion) (request : Request) :
    let engine := (start.run steps).2
    let next := (engine.perform now request).2
    (∀ entry ∈ engine.tree.entries, engine.history entry.root.text = entry.derivations ∧
      (entry.derivations.map Derivation.word).Nodup) ∧
    engine.listRoots ⊆ next.listRoots ∧
    ∀ text, ∃ new, next.history text = engine.history text ++ new ∧ new.length ≤ 1 ∧
      ∀ derivation ∈ new, derivation.recordedAt = now.time ∧ text ∈ engine.listRoots ∧
        request.recordsOn? = some text := by
  intro engine next
  have hengine : engine.WellFormed := hstart.faithful.wellFormed.run steps
  obtain ⟨hroots, hhistory⟩ := hengine.appendsOn_perform now request
  refine ⟨?_, hroots, hhistory⟩
  intro entry hentry
  exact ⟨history_of_mem hengine.ordered hentry, hengine.distinctWords entry hentry⟩

/-- A snapshot that has one word twice on a root, and the root twice. -/
def repetitive : Snapshot where
  schemes := [⟨"فاعل", none, false, .activeParticiple, 0⟩]
  roots :=
    [⟨"درس", ["درس", "مدروس", "درس"].map fun word => ⟨word, "فعل", Instant.ofEpoch 0⟩⟩,
      ⟨"درس", []⟩]

theorem history_append_only_repetitive :
    let engine := ((restore .standard repetitive).1.run
      [(Occasion.ofEpoch 0, .loadRoots ["كتب", "خرج", "جلس"])]).2
    let next := (engine.perform (Occasion.ofEpoch 60) (.generate "درس" "فاعل")).2
    (engine.history "درس").map Derivation.word = ["درس", "مدروس"] ∧
      (∃ new, next.history "درس" = engine.history "درس" ++ new ∧
        new.map Derivation.word = ["دارس"]) ∧
      next.history "كتب" = engine.history "كتب" := by
  intro engine next
  obtain ⟨-, -, hhistory⟩ := history_append_only (p := .standard) (.restored repetitive)
    [(Occasion.ofEpoch 0, .loadRoots ["كتب", "خرج", "جلس"])] (Occasion.ofEpoch 60)
    (.generate "درس" "فاعل")
  have hbefore : (engine.history "درس").map Derivation.word = ["درس", "مدروس"] := by
    decide +kernel
  have hafter : (next.history "درس").map Derivation.word = ["درس", "مدروس"] ++ ["دارس"] := by
    decide +kernel
  refine ⟨hbefore, ?_, ?_⟩
  · obtain ⟨new, hnew, -⟩ := hhistory "درس"
    refine ⟨new, hnew, ?_⟩
    rw [hnew, List.map_append, hbefore] at hafter
    exact List.append_cancel_left hafter
  · obtain ⟨new, hnew, -, hnamed⟩ := hhistory "كتب"
    have hnone : new = [] := by
      refine List.eq_nil_iff_forall_not_mem.mpr fun derivation hmem => ?_
      exact absurd (hnamed derivation hmem).2.2 (by decide)
    rw [hnew, hnone, List.append_nil]

/-! ### Times of derivations -/

theorem WellFormed.mem_derivations_perform (hengine : engine.WellFormed) {now : Occasion}
    {request : Request} {derivation : Derivation}
    (h : derivation ∈ (engine.perform now request).2.tree.derivations) :
    derivation ∈ engine.tree.derivations ∨ derivation.recordedAt = now.time := by
  have hnext := (hengine.perform now request).ordered
  obtain ⟨-, hhistory⟩ := hengine.appendsOn_perform now request
  obtain ⟨text, hmem⟩ := (mem_derivations_iff_history hnext).mp h
  obtain ⟨new, happend, -, hnew⟩ := hhistory text
  rw [happend, List.mem_append] at hmem
  rcases hmem with hold | hadded
  · exact .inl ((mem_derivations_iff_history hengine.ordered).mpr ⟨text, hold⟩)
  · exact .inr (hnew derivation hadded).1

theorem WellFormed.mem_derivations_run (hengine : engine.WellFormed)
    {steps : List (Occasion × Request)} {derivation : Derivation}
    (h : derivation ∈ (engine.run steps).2.tree.derivations) :
    derivation ∈ engine.tree.derivations ∨ ∃ step ∈ steps, derivation.recordedAt = step.1.time := by
  induction steps generalizing engine with
  | nil => exact .inl h
  | cons step rest ih =>
      obtain ⟨now, request⟩ := step
      rcases ih (hengine.perform now request) h with hfirst | ⟨later, hlater, htime⟩
      · rcases hengine.mem_derivations_perform hfirst with hold | htime
        · exact .inl hold
        · exact .inr ⟨(now, request), List.mem_cons_self, htime⟩
      · exact .inr ⟨later, List.mem_cons_of_mem _ hlater, htime⟩

end Engine

end Triliteral
