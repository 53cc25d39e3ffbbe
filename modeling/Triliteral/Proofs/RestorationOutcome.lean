import Triliteral.Proofs.FirstOccurrences
import Triliteral.Proofs.HistoryGrowth

/-!
What a restoration makes of any records. Of each name it keeps the first usable record and of each
root the first record; the report lists all the others, in the order in which they came.
-/

namespace Triliteral

open FirstOccurrences

/-! ### Schemes -/

namespace Engine

variable {p : Placeholders}

/-- What restored schemes and the names left out have to do with the records that were read. -/
structure SchemesAccounted (p : Placeholders) (records : List SchemeRecord)
    (restored : Registry × List String) : Prop where
  find?_eq : ∀ name, restored.1.find? name =
    (firstWith? (SchemeRecord.usableName? p) name records).bind fun record =>
      (Scheme.ofRecord p record).toOption
  size_eq : restored.1.size = (firsts (SchemeRecord.usableName? p) records).length
  skipped_eq : restored.2 =
    (others (SchemeRecord.usableName? p) records).map SchemeRecord.name

theorem SchemesAccounted.find?_eq_none_iff {records : List SchemeRecord}
    {restored : Registry × List String} (h : SchemesAccounted p records restored) {name : String} :
    restored.1.find? name = none ↔
      firstWith? (SchemeRecord.usableName? p) name records = none := by
  rw [h.find?_eq]
  constructor
  · intro hnone
    by_contra hsome
    obtain ⟨record, hrecord⟩ := Option.ne_none_iff_exists'.mp hsome
    obtain ⟨-, hkey⟩ := key_of_firstWith? hrecord
    obtain ⟨scheme, hscheme⟩ :=
      Scheme.exists_ofRecord_iff.mpr (SchemeRecord.usableName?_eq_some_iff.mp hkey).2
    rw [hrecord, Option.bind_some, hscheme] at hnone
    cases hnone
  · intro hnone
    rw [hnone, Option.bind_none]

theorem SchemesAccounted.restoreScheme_of_first {records : List SchemeRecord} {registry : Registry}
    {skipped : List String} (h : SchemesAccounted p records (registry, skipped))
    {record : SchemeRecord} (hfirst : isFirst (SchemeRecord.usableName? p) records record = true) :
    ∃ scheme, Scheme.ofRecord p record = .ok scheme ∧ scheme.name = record.name ∧
      registry.find? record.name = none ∧
      Engine.restoreScheme p (registry, skipped) record =
        (⟨Registry.insertByName scheme registry.schemes⟩, skipped) := by
  obtain ⟨name, hkey, hnone⟩ := isFirst_iff.mp hfirst
  obtain ⟨rfl, husable⟩ := SchemeRecord.usableName?_eq_some_iff.mp hkey
  obtain ⟨scheme, hscheme⟩ := Scheme.exists_ofRecord_iff.mpr husable
  have hname : scheme.name = record.name := (Scheme.ofRecord_eq_ok hscheme).1
  have hfree : registry.find? record.name = none := h.find?_eq_none_iff.mpr hnone
  refine ⟨scheme, hscheme, hname, hfree, ?_⟩
  rw [Engine.restoreScheme, hscheme, ok_bind,
    Registry.add_eq_ok_iff.mpr ⟨hname ▸ hfree, rfl⟩]

theorem SchemesAccounted.restoreScheme_of_other {records : List SchemeRecord} {registry : Registry}
    {skipped : List String} (h : SchemesAccounted p records (registry, skipped))
    {record : SchemeRecord} (hfirst : isFirst (SchemeRecord.usableName? p) records record = false) :
    Engine.restoreScheme p (registry, skipped) record =
      (registry, skipped ++ [record.name]) := by
  have hrefused : ∀ next, Scheme.ofRecord p record >>= registry.add ≠ .ok next := by
    intro next hok
    obtain ⟨scheme, hscheme, hadd⟩ := bind_eq_ok_iff.mp hok
    obtain ⟨hfree, -⟩ := Registry.add_eq_ok_iff.mp hadd
    have hkey : record.usableName? p = some record.name :=
      SchemeRecord.usableName?_eq_some_iff.mpr
        ⟨rfl, Scheme.exists_ofRecord_iff.mp ⟨scheme, hscheme⟩⟩
    rw [(Scheme.ofRecord_eq_ok hscheme).1] at hfree
    have hfirst' := (isFirst_iff_of_key hkey).mpr (h.find?_eq_none_iff.mp hfree)
    exact absurd (hfirst.symm.trans hfirst') Bool.false_ne_true
  rw [Engine.restoreScheme]
  split
  · next next hok => exact absurd hok (hrefused next)
  · rfl

theorem SchemesAccounted.restoreScheme {records : List SchemeRecord}
    {restored : Registry × List String} (h : SchemesAccounted p records restored)
    (record : SchemeRecord) :
    SchemesAccounted p (records ++ [record]) (restoreScheme p restored record) := by
  obtain ⟨registry, skipped⟩ := restored
  have hfind := h.find?_eq
  cases hfirst : isFirst (SchemeRecord.usableName? p) records record with
  | true =>
      obtain ⟨scheme, hscheme, hname, hfree, hstep⟩ := h.restoreScheme_of_first hfirst
      obtain ⟨name, hkey, hnone⟩ := isFirst_iff.mp hfirst
      obtain ⟨rfl, -⟩ := SchemeRecord.usableName?_eq_some_iff.mp hkey
      obtain ⟨hfirsts, hothers, -⟩ := firsts_concat_of_first hfirst
      rw [hstep]
      refine ⟨fun name => ?_, ?_, ?_⟩
      · rw [Registry.find?_insertByName (hname ▸ hfree), hname, firstWith?_concat, hkey]
        by_cases hsame : record.name = name
        · rw [← hsame, if_pos rfl, hnone, if_pos rfl, Option.none_or, Option.bind_some, hscheme]
          rfl
        · rw [if_neg hsame, if_neg (by simpa using hsame), Option.or_none, hfind]
      · rw [Registry.size_insertByName, hfirsts, List.length_append, ← h.size_eq]
        rfl
      · rw [hothers]
        exact h.skipped_eq
  | false =>
      obtain ⟨hfirsts, hothers⟩ := others_concat hfirst
      rw [h.restoreScheme_of_other hfirst]
      refine ⟨fun name => ?_, ?_, ?_⟩
      · rw [hfind, firstWith?_concat_of_not_first hfirst]
      · rw [hfirsts]
        exact h.size_eq
      · rw [hothers, List.map_append, ← h.skipped_eq]
        rfl

theorem schemesAccounted_restoreSchemes (p : Placeholders) (records : List SchemeRecord) :
    SchemesAccounted p records (restoreSchemes p records) := by
  induction records using List.reverseRecOn with
  | nil => exact ⟨fun _ => rfl, rfl, rfl⟩
  | append_singleton records record ih =>
      rw [restoreSchemes, List.foldl_concat]
      exact ih.restoreScheme record

end Engine

/-! ### Roots -/

/-- The word of a derivation, as the key under which it is recorded. -/
def Derivation.key? (derivation : Derivation) : Option String :=
  some derivation.word

def RootRecord.rootText? (record : RootRecord) : Option String :=
  if record.root.length = 3 then some record.root else none

theorem RootRecord.rootText?_eq_some_iff {record : RootRecord} {text : String} :
    record.rootText? = some text ↔ record.root = text ∧ text.length = 3 := by
  rw [rootText?, Option.ite_none_right_eq_some, Option.some.injEq]
  constructor
  · rintro ⟨hlength, rfl⟩
    exact ⟨rfl, hlength⟩
  · rintro ⟨rfl, hlength⟩
    exact ⟨hlength, rfl⟩

/-- Recording derivations one after the other keeps the first one of each word. -/
theorem Derivation.foldl_record (derivations : List Derivation) :
    derivations.foldl (fun history derivation => derivation.record history) [] =
      firsts key? derivations := by
  induction derivations using List.reverseRecOn with
  | nil => rfl
  | append_singleton derivations derivation ih =>
      have hold : derivation.word ∈ (firsts key? derivations).map word ↔
          isFirst key? derivations derivation = false := by
        have hkey : derivation.key? = some derivation.word := rfl
        rw [← Bool.not_eq_true, isFirst_iff_of_key hkey, ← ne_eq, Option.ne_none_iff_exists',
          exists_firstWith?_iff, ← exists_mem_firsts_iff, List.mem_map]
        simp only [key?, Option.some.injEq]
      rw [List.foldl_concat, ih]
      cases hfirst : isFirst key? derivations derivation with
      | true =>
          rw [(firsts_concat_of_first hfirst).1, record_of_new]
          rw [hold, hfirst]
          exact Bool.noConfusion
      | false => rw [(others_concat hfirst).1, record_of_old (hold.mpr hfirst)]

namespace RootTree

theorem foldl_recordAt (root : Root) (derivations : List Derivation) (entry : RootEntry) :
    derivations.foldl (fun entry derivation => entry.recordAt root derivation) entry =
      if entry.root = root then
        ⟨root, derivations.foldl (fun history derivation => derivation.record history)
          entry.derivations⟩
      else entry := by
  induction derivations generalizing entry with
  | nil =>
      split
      · next hroot => rw [← hroot]; rfl
      · rfl
  | cons derivation derivations ih =>
      rw [List.foldl_cons, ih, RootEntry.root_recordAt]
      by_cases hroot : entry.root = root
      · simp only [if_pos hroot, RootEntry.recordAt, List.foldl_cons]
      · rw [if_neg hroot, if_neg hroot, RootEntry.recordAt_of_ne derivation hroot]

theorem entries_recordAll {tree : RootTree} (hordered : tree.Ordered) (root : Root)
    (derivations : List Derivation) :
    (recordAll root derivations tree).entries = tree.entries.map fun entry =>
      derivations.foldl (fun entry derivation => entry.recordAt root derivation) entry := by
  induction derivations generalizing tree with
  | nil => simp [recordAll]
  | cons derivation derivations ih =>
      rw [recordAll, List.foldl_cons, ← recordAll, ih (hordered.record root derivation),
        entries_record hordered, List.map_map]
      rfl

/-- A root that is stored with derivations has the first one of each word; all other entries stay
as they are. -/
theorem mem_entries_recordAll_grow {tree : RootTree} (hordered : tree.Ordered) {root : Root}
    (hnew : root ∉ tree.roots) {derivations : List Derivation} {entry : RootEntry} :
    entry ∈ (recordAll root derivations (grow root tree)).entries ↔
      entry = ⟨root, firsts Derivation.key? derivations⟩ ∨ entry ∈ tree.entries := by
  rw [entries_recordAll (hordered.grow hnew), entries_grow hordered hnew, List.mem_map]
  simp only [foldl_recordAt, ← Derivation.foldl_record]
  have hkept : ∀ old ∈ tree.entries, old.root ≠ root := by
    rintro old hold rfl
    exact hnew (List.mem_map_of_mem hold)
  constructor
  · rintro ⟨old, hold, rfl⟩
    rcases (List.mem_orderedInsert _).mp hold with rfl | hold
    · exact .inl (if_pos rfl)
    · exact .inr (by rwa [if_neg (hkept old hold)])
  · rintro (rfl | hold)
    · exact ⟨⟨root, []⟩, (List.mem_orderedInsert _).mpr (.inl rfl), if_pos rfl⟩
    · exact ⟨entry, (List.mem_orderedInsert _).mpr (.inr hold), if_neg (hkept entry hold)⟩

end RootTree

namespace Engine

/-- What restored roots and the texts left out have to do with the records that were read. -/
structure RootsAccounted (records : List RootRecord) (restored : RestoredRoots) : Prop where
  ordered : restored.tree.Ordered
  mem_entries_iff : ∀ entry, entry ∈ restored.tree.entries ↔
    ∃ record, firstWith? RootRecord.rootText? entry.root.text records = some record ∧
      entry.derivations = firsts Derivation.key? record.derivations
  size_eq : restored.tree.size = (firsts RootRecord.rootText? records).length
  invalid_eq : restored.invalid =
    (records.filter fun record => record.rootText?.isNone).map RootRecord.root
  duplicates_eq : restored.duplicates =
    (repeats RootRecord.rootText? records).map RootRecord.root

theorem RootsAccounted.mem_roots_iff {records : List RootRecord} {restored : RestoredRoots}
    (h : RootsAccounted records restored) {root : Root} :
    root ∈ restored.tree.roots ↔
      firstWith? RootRecord.rootText? root.text records ≠ none := by
  rw [Option.ne_none_iff_exists', RootTree.roots_eq_map_entries, List.mem_map]
  constructor
  · rintro ⟨entry, hentry, rfl⟩
    obtain ⟨record, hrecord, -⟩ := (h.mem_entries_iff entry).mp hentry
    exact ⟨record, hrecord⟩
  · rintro ⟨record, hrecord⟩
    exact ⟨⟨root, _⟩, (h.mem_entries_iff _).mpr ⟨record, hrecord, rfl⟩, rfl⟩

theorem RootsAccounted.restoreRoot_of_invalid {records : List RootRecord} {restored : RestoredRoots}
    (h : RootsAccounted records restored) {record : RootRecord}
    (hroot : Root.ofText? record.root = none) :
    RootsAccounted (records ++ [record])
      { restored with invalid := restored.invalid ++ [record.root] } := by
  have hkey : record.rootText? = none := if_neg (Root.ofText?_eq_none_iff.mp hroot)
  have hfirst : isFirst RootRecord.rootText? records record = false := isFirst_of_no_key hkey
  refine ⟨h.ordered, fun entry => ?_, ?_, ?_, ?_⟩
  · rw [firstWith?_concat_of_not_first hfirst]
    exact h.mem_entries_iff entry
  · rw [(others_concat hfirst).1]
    exact h.size_eq
  · simp [h.invalid_eq, hkey]
  · rw [repeats_concat_of_no_key hkey]
    exact h.duplicates_eq

theorem filter_invalid_concat {records : List RootRecord} {record : RootRecord} {text : String}
    (hkey : record.rootText? = some text) :
    (records ++ [record]).filter (fun record => record.rootText?.isNone) =
      records.filter fun record => record.rootText?.isNone := by
  simp [hkey]

theorem RootsAccounted.restoreRoot_of_first {records : List RootRecord} {restored : RestoredRoots}
    (h : RootsAccounted records restored) {record : RootRecord} {root : Root}
    (hkey : record.rootText? = some root.text)
    (hfirst : isFirst RootRecord.rootText? records record = true)
    (hnew : root ∉ restored.tree.roots) :
    RootsAccounted (records ++ [record]) { restored with
      tree := (restored.tree.grow root).recordAll root record.derivations } := by
  have hnone := (isFirst_iff_of_key hkey).mp hfirst
  obtain ⟨hfirsts, -, hrepeats⟩ := firsts_concat_of_first hfirst
  refine ⟨(h.ordered.grow hnew).recordAll root record.derivations, fun entry => ?_, ?_, ?_, ?_⟩
  · -- the record adds the entry of its root, for which no earlier record stands
    rw [RootTree.mem_entries_recordAll_grow h.ordered hnew, h.mem_entries_iff, firstWith?_concat]
    by_cases hsame : entry.root = root
    · subst hsame
      rw [hnone, if_pos hkey, Option.none_or]
      obtain ⟨root, history⟩ := entry
      simp
    · have hother : record.rootText? ≠ some entry.root.text := by
        rw [hkey]
        intro heq
        exact hsame (Root.text_injective (Option.some.inj heq)).symm
      rw [if_neg hother, Option.or_none]
      constructor
      · rintro (rfl | hentry)
        · exact absurd rfl hsame
        · exact hentry
      · exact .inr
  · rw [hfirsts, List.length_append, ← h.size_eq, RootTree.size_eq_length_roots,
      RootTree.roots_recordAll, ← RootTree.size_eq_length_roots]
    have hsize := RootTree.size_insert h.ordered root
    rwa [RootTree.insert_eq h.ordered, if_neg hnew, if_neg hnew] at hsize
  · rw [filter_invalid_concat hkey]
    exact h.invalid_eq
  · rw [hrepeats]
    exact h.duplicates_eq

theorem RootsAccounted.restoreRoot_of_repeat {records : List RootRecord} {restored : RestoredRoots}
    (h : RootsAccounted records restored) {record : RootRecord} {text : String}
    (hkey : record.rootText? = some text)
    (hfirst : isFirst RootRecord.rootText? records record = false) :
    RootsAccounted (records ++ [record])
      { restored with duplicates := restored.duplicates ++ [record.root] } := by
  refine ⟨h.ordered, fun entry => ?_, ?_, ?_, ?_⟩
  · rw [firstWith?_concat_of_not_first hfirst]
    exact h.mem_entries_iff entry
  · rw [(others_concat hfirst).1]
    exact h.size_eq
  · rw [filter_invalid_concat hkey]
    exact h.invalid_eq
  · rw [repeats_concat_of_key hkey hfirst, List.map_append, ← h.duplicates_eq]
    rfl

theorem RootsAccounted.restoreRoot {records : List RootRecord} {restored : RestoredRoots}
    (h : RootsAccounted records restored) (record : RootRecord) :
    RootsAccounted (records ++ [record]) (restoreRoot restored record) := by
  rw [Engine.restoreRoot]
  cases hroot : Root.ofText? record.root with
  | none => exact h.restoreRoot_of_invalid hroot
  | some root =>
      have htext : record.root = root.text := Root.ofText?_eq_some_iff.mp hroot
      have hkey : record.rootText? = some root.text :=
        RootRecord.rootText?_eq_some_iff.mpr ⟨htext, root.length_text⟩
      have hold : root ∈ restored.tree.roots ↔
          isFirst RootRecord.rootText? records record = false := by
        rw [h.mem_roots_iff, ne_eq, ← isFirst_iff_of_key hkey, Bool.not_eq_true]
      simp only [RootTree.insert_eq h.ordered]
      cases hfirst : isFirst RootRecord.rootText? records record with
      | true =>
          have hnew : root ∉ restored.tree.roots := by
            rw [hold, hfirst]
            exact Bool.noConfusion
          rw [if_neg hnew]
          exact h.restoreRoot_of_first hkey hfirst hnew
      | false =>
          rw [if_pos (hold.mpr hfirst)]
          exact h.restoreRoot_of_repeat hkey hfirst

theorem rootsAccounted_restoreRoots (records : List RootRecord) :
    RootsAccounted records (restoreRoots records) := by
  induction records using List.reverseRecOn with
  | nil =>
      refine ⟨RootTree.ordered_leaf, fun entry => ?_, rfl, rfl, rfl⟩
      simp [restoreRoots, firstWith?]
  | append_singleton records record ih =>
      rw [restoreRoots, List.foldl_concat]
      exact ih.restoreRoot record

theorem RootsAccounted.length_eq {records : List RootRecord} {restored : RestoredRoots}
    (h : RootsAccounted records restored) :
    restored.tree.size + restored.invalid.length + restored.duplicates.length =
      records.length := by
  rw [h.size_eq, h.invalid_eq, h.duplicates_eq, List.length_map, List.length_map, Nat.add_assoc,
    ← length_others, length_firsts_add_others]

theorem SchemesAccounted.length_eq {records : List SchemeRecord}
    {restored : Registry × List String} (h : SchemesAccounted p records restored) :
    restored.1.size + restored.2.length = records.length := by
  rw [h.size_eq, h.skipped_eq, List.length_map, length_firsts_add_others]

/-- The registered schemes are those that the first usable records of their names describe. -/
theorem SchemesAccounted.find?_eq_some_iff {records : List SchemeRecord}
    {restored : Registry × List String} (h : SchemesAccounted p records restored) {name : String}
    {scheme : Scheme} :
    restored.1.find? name = some scheme ↔
      ∃ record, firstWith? (SchemeRecord.usableName? p) name records = some record ∧
        record.Describes p scheme := by
  rw [h.find?_eq, Option.bind_eq_some_iff]
  refine exists_congr fun record => and_congr_right fun hfirst => ?_
  obtain ⟨-, hkey⟩ := key_of_firstWith? hfirst
  have husable := (SchemeRecord.usableName?_eq_some_iff.mp hkey).2
  have hok : (Scheme.ofRecord p record).toOption = some scheme ↔
      Scheme.ofRecord p record = .ok scheme := by
    cases Scheme.ofRecord p record <;> simp [Except.toOption]
  rw [hok, Scheme.ofRecord_eq_ok_iff, and_iff_right husable]

theorem SchemesAccounted.exists_find?_iff {records : List SchemeRecord}
    {restored : Registry × List String} (h : SchemesAccounted p records restored) {name : String} :
    (∃ scheme, restored.1.find? name = some scheme) ↔
      ∃ record ∈ records, record.name = name ∧ record.Usable p := by
  rw [← Option.ne_none_iff_exists', ne_eq, h.find?_eq_none_iff, ← ne_eq,
    Option.ne_none_iff_exists', exists_firstWith?_iff]
  simp only [SchemeRecord.usableName?_eq_some_iff]

theorem RootsAccounted.exists_entry_iff {records : List RootRecord} {restored : RestoredRoots}
    (h : RootsAccounted records restored) {text : String} :
    (∃ entry ∈ restored.tree.entries, entry.root.text = text) ↔
      text.length = 3 ∧ ∃ record ∈ records, record.root = text := by
  constructor
  · rintro ⟨entry, hentry, rfl⟩
    obtain ⟨record, hfirst, -⟩ := (h.mem_entries_iff entry).mp hentry
    obtain ⟨hmem, hkey⟩ := key_of_firstWith? hfirst
    exact ⟨entry.root.length_text, record, hmem, (RootRecord.rootText?_eq_some_iff.mp hkey).1⟩
  · rintro ⟨hlength, record, hmem, rfl⟩
    obtain ⟨root, htext⟩ := Root.exists_text_eq_iff.mpr hlength
    obtain ⟨first, hfirst⟩ := exists_firstWith?_iff.mpr
      ⟨record, hmem, RootRecord.rootText?_eq_some_iff.mpr ⟨htext.symm, root.length_text⟩⟩
    exact ⟨⟨root, _⟩, (h.mem_entries_iff _).mpr ⟨first, hfirst, rfl⟩, htext⟩

theorem RootsAccounted.exists_history_iff {records : List RootRecord} {restored : RestoredRoots}
    (h : RootsAccounted records restored) {text : String} {history : List Derivation} :
    (∃ entry ∈ restored.tree.entries, entry.root.text = text ∧ entry.derivations = history) ↔
      ∃ record, firstWith? RootRecord.rootText? text records = some record ∧
        history = firsts Derivation.key? record.derivations := by
  constructor
  · rintro ⟨entry, hentry, rfl, rfl⟩
    exact (h.mem_entries_iff entry).mp hentry
  · rintro ⟨record, hfirst, rfl⟩
    obtain ⟨hmem, hkey⟩ := key_of_firstWith? hfirst
    obtain ⟨htext, hlength⟩ := RootRecord.rootText?_eq_some_iff.mp hkey
    obtain ⟨entry, hentry, rfl⟩ := h.exists_entry_iff.mpr ⟨hlength, record, hmem, htext⟩
    exact ⟨⟨entry.root, firsts Derivation.key? record.derivations⟩,
      (h.mem_entries_iff _).mpr ⟨record, hfirst, rfl⟩, rfl, rfl⟩

/-! ### Whole snapshots -/

/-- Restoring any snapshot registers, for each name of a usable record, the scheme that the first
of them describes, and stores each root of three letters with the derivations of its first
record, each word once. The report has the names and the texts of all other records, in order. -/
theorem restore_keeps_firsts (p : Placeholders) (snapshot : Snapshot) :
    ∃ engine report, restore p snapshot = (engine, report) ∧ engine.placeholders = p ∧
      (∀ name, (∃ scheme, engine.registry.find? name = some scheme) ↔
        ∃ record ∈ snapshot.schemes, record.name = name ∧ record.Usable p) ∧
      (∀ name scheme, engine.registry.find? name = some scheme ↔
        ∃ record, firstWith? (SchemeRecord.usableName? p) name snapshot.schemes = some record ∧
          record.Describes p scheme) ∧
      report.skippedSchemes =
        (others (SchemeRecord.usableName? p) snapshot.schemes).map SchemeRecord.name ∧
      engine.listRoots.Pairwise (fun a b => a < b) ∧
      (∀ text, text ∈ engine.listRoots ↔
        text.length = 3 ∧ ∃ record ∈ snapshot.roots, record.root = text) ∧
      (∀ text history, engine.derivations text = .ok history ↔
        ∃ record, firstWith? RootRecord.rootText? text snapshot.roots = some record ∧
          history = firsts Derivation.key? record.derivations) ∧
      report.invalidRoots =
        (snapshot.roots.filter fun record => record.root.length ≠ 3).map RootRecord.root ∧
      report.duplicateRoots =
        (repeats RootRecord.rootText? snapshot.roots).map RootRecord.root ∧
      engine.registry.size + report.skippedSchemes.length = snapshot.schemes.length ∧
      engine.rootCount + report.invalidRoots.length + report.duplicateRoots.length =
        snapshot.roots.length := by
  have hschemes := schemesAccounted_restoreSchemes p snapshot.schemes
  have hroots := rootsAccounted_restoreRoots snapshot.roots
  have hinvalid : ∀ record : RootRecord,
      record.rootText?.isNone = decide (record.root.length ≠ 3) := by
    intro record
    rw [RootRecord.rootText?]
    split <;> simp [*]
  refine ⟨_, _, rfl, rfl, ?_, ?_, hschemes.skipped_eq, pairwise_listRoots hroots.ordered, ?_, ?_,
    ?_, hroots.duplicates_eq, hschemes.length_eq, hroots.length_eq⟩
  · intro name
    exact hschemes.exists_find?_iff
  · intro name scheme
    exact hschemes.find?_eq_some_iff
  · intro text
    rw [mem_listRoots_iff_entries]
    exact hroots.exists_entry_iff
  · intro text history
    rw [derivations_eq_ok_iff hroots.ordered]
    exact hroots.exists_history_iff
  · simp only [← hinvalid]
    exact hroots.invalid_eq

end Engine

end Triliteral
