import Triliteral.Proofs.RestorationOutcome

/-!
Canonical snapshots. They are the ones that engines write: whatever is restored is written out
as a canonical snapshot, and a canonical snapshot is read and written back as it is.
-/

namespace Triliteral

/-! ### Canonical records -/

namespace SchemeRecord

/-- Holds of a record that tells its scheme and nothing else. A dynamic one has a name and a
pattern with every placeholder, any other one is that of a built-in scheme. -/
def Canonical (p : Placeholders) (record : SchemeRecord) : Prop :=
  (record.dynamic = true ∧ Text.isBlankText record.name = false ∧
      ∃ source, record.pattern = some source ∧ ∀ symbol ∈ p.symbols, symbol ∈ source.toList) ∨
    (record.dynamic = false ∧ record.pattern = none ∧
      ∃ entry ∈ Catalog.schemes, entry.name = record.name ∧ entry.category = record.category)

variable {p : Placeholders} {record : SchemeRecord}

theorem Canonical.exists_ofRecord (h : record.Canonical p) :
    ∃ scheme, Scheme.ofRecord p record = .ok scheme ∧ scheme.toRecord = record := by
  obtain ⟨name, pattern, dynamic, category, usage⟩ := record
  rcases h with ⟨rfl, hnamed, source, rfl, hsymbols⟩ | ⟨rfl, rfl, entry, hentry, rfl, rfl⟩
  · refine ⟨⟨name, category, .compiled ⟨source, Pattern.instructions p source.toList⟩, usage⟩,
      ?_, rfl⟩
    exact Scheme.ofRecord_eq_ok_iff.mpr ⟨⟨hnamed, hsymbols⟩, rfl, rfl, rfl, rfl⟩
  · obtain ⟨word, hword⟩ := Catalog.exists_rule_eq_explicit hentry
    refine ⟨{ entry with usage }, ?_, ?_⟩
    · exact Scheme.ofRecord_eq_ok_iff.mpr
        ⟨List.mem_map_of_mem hentry, rfl, rfl, entry, hentry, rfl, rfl, rfl⟩
    · simp [Scheme.toRecord, Scheme.isDynamic, hword, Rule.source?]

end SchemeRecord

theorem Scheme.Restorable.canonical_toRecord {p : Placeholders} {scheme : Scheme}
    (h : scheme.Restorable p) (hnamed : Text.isBlankText scheme.name = false) :
    scheme.toRecord.Canonical p := by
  obtain ⟨name, category, rule, usage⟩ := scheme
  cases rule with
  | explicit word =>
      obtain ⟨entry, hfind, hentry⟩ := h
      obtain ⟨hmem, hname⟩ := Catalog.find?_eq_some_iff.mp hfind
      exact .inr ⟨rfl, rfl, entry, hmem, hname, (congrArg Scheme.category hentry).symm⟩
  | compiled pattern =>
      obtain ⟨hsymbols, -⟩ := Pattern.compile_eq_ok_iff.mp h
      exact .inl ⟨rfl, hnamed, pattern.source, rfl, hsymbols⟩

namespace RootRecord

def Canonical (record : RootRecord) : Prop :=
  record.root.length = 3 ∧ (record.derivations.map Derivation.word).Nodup

theorem Canonical.exists_entry {record : RootRecord} (h : record.Canonical) :
    ∃ entry : RootEntry, entry.DistinctWords ∧ entry.toRecord = record := by
  obtain ⟨text, derivations⟩ := record
  obtain ⟨hlength, hwords⟩ := h
  obtain ⟨root, rfl⟩ := Root.exists_text_eq_iff.mpr hlength
  exact ⟨⟨root, derivations⟩, hwords, rfl⟩

theorem canonical_toRecord {entry : RootEntry} (h : entry.DistinctWords) :
    entry.toRecord.Canonical :=
  ⟨entry.root.length_text, h⟩

end RootRecord

/-! ### Canonical snapshots -/

namespace Snapshot

/-- Holds of a snapshot in which every record is canonical and stands where an engine writes
it. -/
structure Canonical (p : Placeholders) (snapshot : Snapshot) : Prop where
  names_ascending : snapshot.schemes.Pairwise fun a b => a.name < b.name
  schemes_canonical : ∀ record ∈ snapshot.schemes, record.Canonical p
  roots_ascending : snapshot.roots.Pairwise fun a b => a.root < b.root
  roots_canonical : ∀ record ∈ snapshot.roots, record.Canonical

theorem exists_map_eq_of_forall {α β : Type} {P : α → Prop} {f : α → β} {values : List β}
    (h : ∀ value ∈ values, ∃ item, P item ∧ f item = value) :
    ∃ items : List α, (∀ item ∈ items, P item) ∧ items.map f = values := by
  induction values with
  | nil => exact ⟨[], by simp⟩
  | cons value values ih =>
      obtain ⟨item, hitem, rfl⟩ := h value List.mem_cons_self
      obtain ⟨items, hitems, rfl⟩ := ih fun other hother => h other (List.mem_cons_of_mem _ hother)
      exact ⟨item :: items, List.forall_mem_cons.mpr ⟨hitem, hitems⟩, rfl⟩

variable {p : Placeholders} {snapshot : Snapshot}

theorem Canonical.exists_registry (h : snapshot.Canonical p) :
    ∃ registry, Engine.RestoredRegistry p registry ∧
      registry.schemes.map Scheme.toRecord = snapshot.schemes := by
  have hvalues : ∀ record ∈ snapshot.schemes, ∃ scheme : Scheme,
      (Text.isBlankText scheme.name = false ∧ scheme.Restorable p) ∧
        scheme.toRecord = record := by
    intro record hrecord
    obtain ⟨scheme, hscheme, rfl⟩ := (h.schemes_canonical record hrecord).exists_ofRecord
    exact ⟨scheme, (Scheme.ofRecord_eq_ok hscheme).2, rfl⟩
  obtain ⟨schemes, hschemes, hrecords⟩ := exists_map_eq_of_forall hvalues
  have hnames := h.names_ascending
  rw [← hrecords, List.pairwise_map] at hnames
  exact ⟨⟨schemes⟩, ⟨hnames, fun scheme hscheme => (hschemes scheme hscheme).1,
    fun scheme hscheme => (hschemes scheme hscheme).2⟩, hrecords⟩

theorem Canonical.exists_entries (h : snapshot.Canonical p) :
    ∃ entries : List RootEntry, entries.Pairwise RootEntry.Before ∧
      (∀ entry ∈ entries, entry.DistinctWords) ∧
      entries.map RootEntry.toRecord = snapshot.roots := by
  obtain ⟨entries, hwords, hrecords⟩ := exists_map_eq_of_forall fun record hrecord =>
    (h.roots_canonical record hrecord).exists_entry
  have hsorted := h.roots_ascending
  rw [← hrecords] at hsorted
  exact ⟨entries, (List.pairwise_map.mp hsorted).imp Root.text_lt_text_iff.mp, hwords, hrecords⟩

end Snapshot

namespace Engine

variable {p : Placeholders}

theorem Faithful.canonical_snapshot {engine : Engine} (h : engine.Faithful p) :
    engine.snapshot.Canonical p where
  names_ascending := List.pairwise_map.mpr h.wellFormed.sorted
  schemes_canonical := by
    intro record hrecord
    obtain ⟨scheme, hscheme, rfl⟩ := List.mem_map.mp hrecord
    exact (h.restorable scheme hscheme).canonical_toRecord (h.wellFormed.named scheme hscheme)
  roots_ascending := by
    have hsorted := RootTree.ordered_iff_entries.mp h.wellFormed.ordered
    exact List.pairwise_map.mpr (hsorted.imp Root.text_lt_text_iff.mpr)
  roots_canonical := by
    intro record hrecord
    obtain ⟨entry, hentry, rfl⟩ := List.mem_map.mp hrecord
    exact RootRecord.canonical_toRecord (h.wellFormed.distinctWords entry hentry)

/-- A canonical snapshot is used in full and written out as it was. -/
theorem restore_of_canonical {snapshot : Snapshot} (h : snapshot.Canonical p) :
    (restore p snapshot).2 = ⟨[], [], []⟩ ∧ (restore p snapshot).1.snapshot = snapshot := by
  obtain ⟨registry, hregistry, hschemes⟩ := h.exists_registry
  obtain ⟨entries, hsorted, hwords, hroots⟩ := h.exists_entries
  have hrestored := restoreSchemes_toRecord hregistry
  obtain ⟨hentries, hinvalid, hduplicates⟩ := restoreRoots_map_toRecord hsorted hwords
  rw [hschemes] at hrestored
  rw [hroots] at hentries hinvalid hduplicates
  constructor
  · simp only [restore, hrestored, hinvalid, hduplicates]
  · simp only [restore, Engine.snapshot, hrestored, hentries, hschemes, hroots]

/-- Restoring any snapshot and writing it out again gives a canonical one, and exactly the
canonical ones come back as they were, with nothing to report. -/
theorem restore_snapshot_retracts (p : Placeholders) (snapshot : Snapshot) :
    (restore p snapshot).1.snapshot.Canonical p ∧
      (snapshot.Canonical p ↔
        (restore p snapshot).2.isClean = true ∧
          (restore p snapshot).1.snapshot = snapshot) := by
  have hcanonical := (faithful_restore p snapshot).canonical_snapshot
  refine ⟨hcanonical, ?_, ?_⟩
  · intro h
    obtain ⟨hreport, hsame⟩ := restore_of_canonical h
    rw [hreport]
    exact ⟨rfl, hsame⟩
  · rintro ⟨-, hsame⟩
    exact hsame ▸ hcanonical

end Engine

end Triliteral
