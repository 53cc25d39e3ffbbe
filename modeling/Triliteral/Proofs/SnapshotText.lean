import Triliteral.Proofs.InstantText
import Triliteral.Proofs.TomlDocuments
import Triliteral.Proofs.TomlTables
import Triliteral.Snapshot.Toml

/-!
Snapshots as texts. The blocks of a snapshot build the lists of its records again, each record
in its place, so that the text of a snapshot describes the snapshot and nothing else.
-/

namespace Triliteral.Snapshot

open Toml Entries
open Reader.Statement (printable_pair)

/-! ### Lists of records -/

section Growing

variable {α : Type} {record? : Value → Option α} {key : String} {entries : Entries}

/-- Holds of entries in which headers have built the list of some records under a key. -/
def Growing (record? : Value → Option α) (key : String) (entries : Entries)
    (records : List α) : Prop :=
  ∃ items, entries.get? key = grown items ∧ items.mapM record? = some records

theorem growing_nil (h : entries.get? key = none) : Growing record? key entries [] :=
  ⟨[], h, rfl⟩

theorem Growing.read {records : List α} (h : Growing record? key entries records) :
    optional? (records? record?) [] entries key = some records := by
  obtain ⟨items, hget, hitems⟩ := h
  rw [optional?, hget]
  cases items with
  | nil => exact hitems
  | cons item items => exact hitems

theorem Growing.concat {records : List α} {items : List Value} {item : Value} {record : α}
    (hitems : items.mapM record? = some records) (hitem : record? item = some record)
    (hget : entries.get? key = grown (items ++ [item])) :
    Growing record? key entries (records ++ [record]) :=
  ⟨items ++ [item], hget, by simp [hitems, hitem]⟩

/-- The blocks of a list build it as a whole, after an opening that says whether the list is
empty. -/
theorem read_list {records : List α} {blocks : List Block}
    (hget : entries.get? key = if records.isEmpty then some (.array false []) else none)
    (hempty : records = [] → blocks = [])
    (hblocks : Growing record? key entries [] → ∃ after, addBlocks blocks entries = some after ∧
      Growing record? key after records ∧
      ∀ other, other ≠ key → after.get? other = entries.get? other) :
    ∃ after, addBlocks blocks entries = some after ∧
      optional? (records? record?) [] after key = some records ∧
      ∀ other, other ≠ key → after.get? other = entries.get? other := by
  cases records with
  | nil =>
      rw [hempty rfl]
      refine ⟨entries, addBlocks_nil entries, ?_, fun _ _ => rfl⟩
      rw [optional?, hget]
      rfl
  | cons record records =>
      obtain ⟨after, hafter, hgrowing, hkeep⟩ := hblocks (growing_nil hget)
      exact ⟨after, hafter, hgrowing.read, hkeep⟩

end Growing

/-! ### Schemes -/

theorem counter?_integer (usage : UInt64) : counter? (.integer usage.toNat) = some usage := by
  rw [counter?, if_pos (Int.natCast_nonneg _), Int.toNat_natCast, UInt64.ofNat_toNat]

theorem schemeRecord?_block (record : SchemeRecord) :
    ∃ inner, addPairs (schemeBlock record).pairs [] = some inner ∧
      schemeRecord? (.table .header inner) = some record := by
  obtain ⟨name, pattern, dynamic, category, usage⟩ := record
  refine ⟨_, addPairs_eq ?_ ?_ ?_, ?_⟩
  · cases pattern <;> simp [schemeBlock, pairOf]
  · cases pattern <;> simp [schemeBlock, pairOf]
  · simp [get?]
  · cases pattern <;>
      simp [schemeBlock, pairOf, schemeRecord?, fields?, required?, optional?, get?, string?,
        boolean?, counter?_integer, category?, Category.ofName?_name, List.lookup_cons]

theorem addBlocks_schemes (records : List SchemeRecord) {entries : Entries}
    {earlier : List SchemeRecord} (h : Growing schemeRecord? "schemes" entries earlier) :
    ∃ after, addBlocks (records.map schemeBlock) entries = some after ∧
      Growing schemeRecord? "schemes" after (earlier ++ records) ∧
      ∀ other, other ≠ "schemes" → after.get? other = entries.get? other := by
  induction records generalizing entries earlier with
  | nil => exact ⟨entries, rfl, by simpa using h, fun _ _ => rfl⟩
  | cons record records ih =>
      obtain ⟨items, hget, hitems⟩ := h
      obtain ⟨inner, hpairs, hrecord⟩ := schemeRecord?_block record
      obtain ⟨next, hadd, hnext, hkeep⟩ := addBlock_element hpairs hget
      obtain ⟨after, hafter, hgrowing, hrest⟩ := ih (Growing.concat hitems hrecord hnext)
      refine ⟨after, (addBlocks_cons hadd _).trans hafter, by simpa using hgrowing, ?_⟩
      · intro other hother
        rw [hrest other hother, hkeep other hother]

/-! ### Roots -/

theorem derivation?_block {derivation : Derivation}
    (hyear : derivation.recordedAt.HasFourDigitYear) :
    ∃ inner, addPairs (derivationBlock derivation).pairs [] = some inner ∧
      derivation? (.table .header inner) = some derivation := by
  have hinstant := Instant.ofText?_text hyear
  obtain ⟨word, scheme, recordedAt⟩ := derivation
  refine ⟨_, addPairs_eq (by simp [derivationBlock, pairOf])
    (by simp [derivationBlock, pairOf]) (by simp [get?]), ?_⟩
  simp [derivationBlock, pairOf, derivation?, fields?, required?, get?, string?, instant?,
    List.lookup_cons, hinstant]

/-- Blocks of derivations go to the list of the last root. -/
theorem addBlocks_derivations (derivations : List Derivation)
    (hyears : ∀ derivation ∈ derivations, derivation.recordedAt.HasFourDigitYear)
    {entries : Entries} {items : List Value} {inner : Entries} {earlier : List Derivation}
    (hroots : entries.get? "roots" = grown (items ++ [.table .header inner]))
    (h : Growing derivation? "derivations" inner earlier) :
    ∃ after inner', addBlocks (derivations.map derivationBlock) entries = some after ∧
      after.get? "roots" = grown (items ++ [.table .header inner']) ∧
      Growing derivation? "derivations" inner' (earlier ++ derivations) ∧
      (∀ other, other ≠ "derivations" → inner'.get? other = inner.get? other) ∧
      ∀ other, other ≠ "roots" → after.get? other = entries.get? other := by
  induction derivations generalizing entries inner earlier with
  | nil => exact ⟨entries, inner, rfl, hroots, by simpa using h, fun _ _ => rfl, fun _ _ => rfl⟩
  | cons derivation derivations ih =>
      obtain ⟨hyear, hyears⟩ := List.forall_mem_cons.mp hyears
      obtain ⟨ds, hget, hds⟩ := h
      obtain ⟨fields, hpairs, hderivation⟩ := derivation?_block hyear
      obtain ⟨next, hadd, hnext, hkeep⟩ := addBlock_element hpairs hget
      have hnested := @addBlock_nested "roots" "derivations"
        (derivationBlock derivation).pairs entries inner items .header hroots
      rw [hadd, Option.map_some] at hnested
      rw [grown_concat] at hroots
      have hroots' := get?_replace_self hroots (.array true (items ++ [.table .header next]))
      rw [← grown_concat] at hroots'
      obtain ⟨after, inner', hafter, hlist, hgrowing, hinner, hrest⟩ :=
        ih hyears hroots' (Growing.concat hds hderivation hnext)
      refine ⟨after, inner', (addBlocks_cons hnested _).trans hafter, hlist,
        by simpa using hgrowing, ?_, ?_⟩
      · intro other hother
        rw [hinner other hother, hkeep other hother]
      · intro other hother
        rw [hrest other hother, get?_replace_of_ne hother]

theorem addBlocks_root {record : RootRecord}
    (hyears : ∀ derivation ∈ record.derivations, derivation.recordedAt.HasFourDigitYear)
    {entries : Entries} {earlier : List RootRecord}
    (h : Growing rootRecord? "roots" entries earlier) :
    ∃ after, addBlocks (rootBlocks record) entries = some after ∧
      Growing rootRecord? "roots" after (earlier ++ [record]) ∧
      ∀ other, other ≠ "roots" → after.get? other = entries.get? other := by
  obtain ⟨root, derivations⟩ := record
  obtain ⟨items, hget, hitems⟩ := h
  cases derivations with
  | nil =>
      have hpairs : addPairs [pairOf "root" (.string root), pairOf "derivations" (.array false [])]
          [] = some [("root", .string root), ("derivations", .array false [])] :=
        addPairs_eq (by simp [pairOf]) (by simp [pairOf]) (by simp [get?])
      obtain ⟨after, hadd, hafter, hkeep⟩ := addBlock_element hpairs hget
      refine ⟨after, (addBlocks_cons hadd _).trans (addBlocks_nil after), ?_, hkeep⟩
      refine Growing.concat hitems ?_ hafter
      simp [rootRecord?, fields?, required?, optional?, get?, string?, records?, List.lookup_cons]
  | cons derivation derivations =>
      have hpairs : addPairs [pairOf "root" (.string root)] [] =
          some [("root", .string root)] :=
        addPairs_eq (by simp [pairOf]) (by simp [pairOf]) (by simp [get?])
      obtain ⟨next, hadd, hnext, hkeep⟩ := addBlock_element hpairs hget
      have hempty : Growing derivation? "derivations" [("root", .string root)] [] :=
        growing_nil (by simp [get?])
      obtain ⟨after, inner, hafter, hlist, hgrowing, hinner, hrest⟩ :=
        addBlocks_derivations (derivation :: derivations) hyears hnext hempty
      have hroot : inner.get? "root" = some (.string root) := by
        rw [hinner "root" (by decide)]
        rfl
      refine ⟨after, (addBlocks_cons hadd _).trans hafter, ?_, ?_⟩
      · refine Growing.concat hitems ?_ hlist
        have hread := hgrowing.read
        rw [List.nil_append] at hread
        simp [rootRecord?, fields?, required?, hroot, string?, hread]
      · intro other hother
        rw [hrest other hother, hkeep other hother]

theorem addBlocks_roots (records : List RootRecord)
    (hyears : ∀ record ∈ records, ∀ derivation ∈ record.derivations,
      derivation.recordedAt.HasFourDigitYear)
    {entries : Entries} {earlier : List RootRecord}
    (h : Growing rootRecord? "roots" entries earlier) :
    ∃ after, addBlocks (records.flatMap rootBlocks) entries = some after ∧
      Growing rootRecord? "roots" after (earlier ++ records) ∧
      ∀ other, other ≠ "roots" → after.get? other = entries.get? other := by
  induction records generalizing entries earlier with
  | nil => exact ⟨entries, rfl, by simpa using h, fun _ _ => rfl⟩
  | cons record records ih =>
      obtain ⟨hfirst, hyears⟩ := List.forall_mem_cons.mp hyears
      obtain ⟨next, hadd, hnext, hkeep⟩ := addBlocks_root hfirst h
      obtain ⟨after, hafter, hgrowing, hrest⟩ := ih hyears hnext
      refine ⟨after, ?_, by simpa using hgrowing, ?_⟩
      · rw [List.flatMap_cons, addBlocks_append hadd, hafter]
      · intro other hother
        rw [hrest other hother, hkeep other hother]

/-! ### Whole snapshots -/

variable {snapshot : Snapshot}

def HasFourDigitYears (snapshot : Snapshot) : Prop :=
  ∀ record ∈ snapshot.roots, ∀ derivation ∈ record.derivations,
    derivation.recordedAt.HasFourDigitYear

instance : Decidable snapshot.HasFourDigitYears :=
  inferInstanceAs (Decidable (∀ _ ∈ _, ∀ _ ∈ _, _))

theorem addPairs_opening (snapshot : Snapshot) :
    addPairs snapshot.document.opening [] =
      some (snapshot.document.opening.map fun p => (p.key, p.value)) := by
  obtain ⟨schemes, roots⟩ := snapshot
  refine (addPairs_eq ?_ ?_ ?_).trans (by simp)
  · cases schemes <;> cases roots <;> simp [document, emptyList, pairOf]
  · cases schemes <;> cases roots <;> simp [document, emptyList, pairOf]
  · simp [get?]

theorem opening_get? (snapshot : Snapshot) :
    let opening : Entries := snapshot.document.opening.map fun p => (p.key, p.value)
    (opening.get? "schemes" =
      if snapshot.schemes.isEmpty then some (.array false []) else none) ∧
    opening.get? "roots" = if snapshot.roots.isEmpty then some (.array false []) else none := by
  obtain ⟨schemes, roots⟩ := snapshot
  cases schemes <;> cases roots <;>
    simp [document, emptyList, pairOf, get?, List.lookup_cons]

/-- The document of a snapshot describes entries from which the snapshot is read. -/
theorem ofEntries?_document (hyears : snapshot.HasFourDigitYears) :
    snapshot.document.entries? >>= ofEntries? = some snapshot := by
  obtain ⟨hschemes, hroots⟩ := opening_get? snapshot
  obtain ⟨middle, hmiddle, hreadSchemes, hkeep⟩ :=
    read_list hschemes (fun h => by rw [h]; rfl) (addBlocks_schemes snapshot.schemes)
  rw [← hkeep "roots" (by decide)] at hroots
  obtain ⟨after, hafter, hreadRoots, hkeep'⟩ :=
    read_list hroots (fun h => by rw [h]; rfl) (addBlocks_roots snapshot.roots hyears)
  have hentries : snapshot.document.entries? = some after := by
    rw [Document.entries?, addPairs_opening]
    exact (addBlocks_append hmiddle _).trans hafter
  rw [optional?, ← hkeep' "schemes" (by decide), ← optional?] at hreadSchemes
  rw [hentries]
  simp only [Option.bind_eq_bind, Option.bind_some, ofEntries?, hreadSchemes, hreadRoots]
  rfl

theorem printable_emptyList {α : Type} {key : String} (hkey : IsBareKey key)
    (records : List α) :
    ∀ p ∈ emptyList key records, (Reader.Statement.pair p).Printable := by
  unfold emptyList
  split
  · exact List.forall_mem_singleton.mpr (printable_pair hkey trivial)
  · exact List.forall_mem_nil _

theorem printable_block {block : Block} (hheader : (Reader.Statement.header block.header).Printable)
    (hpairs : ∀ p ∈ block.pairs, (Reader.Statement.pair p).Printable) :
    ∀ s ∈ block.statements, s.Printable := by
  refine List.forall_mem_cons.mpr ⟨hheader, ?_⟩
  exact List.forall_mem_map.mpr hpairs

theorem printable_schemeBlock {record : SchemeRecord} (husage : record.usage.toNat ≤ maxInteger) :
    ∀ s ∈ (schemeBlock record).statements, s.Printable := by
  have husage' : (Value.integer record.usage.toNat).Printable :=
    ⟨Int.natCast_nonneg record.usage.toNat, Int.ofNat_le.mpr husage⟩
  refine printable_block ⟨by decide, by decide⟩ ?_
  obtain ⟨name, pattern, dynamic, category, usage⟩ := record
  have hname : (Reader.Statement.pair (pairOf "name" (.string name))).Printable :=
    printable_pair (by decide) trivial
  have hlast : ∀ p ∈ [pairOf "dynamic" (.boolean dynamic),
      pairOf "scheme_type" (.string category.name), pairOf "usage" (.integer usage.toNat)],
      (Reader.Statement.pair p).Printable := by
    simp only [List.forall_mem_cons]
    exact ⟨printable_pair (by decide) trivial, printable_pair (by decide) trivial,
      printable_pair (by decide) husage', List.forall_mem_nil _⟩
  cases pattern with
  | none => exact List.forall_mem_cons.mpr ⟨hname, hlast⟩
  | some pattern =>
      have hpattern : (Reader.Statement.pair (pairOf "pattern" (.string pattern))).Printable :=
        printable_pair (by decide) trivial
      exact List.forall_mem_cons.mpr ⟨hname, List.forall_mem_cons.mpr ⟨hpattern, hlast⟩⟩

theorem printable_derivationBlock (derivation : Derivation) :
    ∀ s ∈ (derivationBlock derivation).statements, s.Printable := by
  refine printable_block ⟨by decide, by decide⟩ ?_
  simp only [derivationBlock, List.forall_mem_cons]
  exact ⟨printable_pair (by decide) trivial, printable_pair (by decide) trivial,
    printable_pair (by decide) trivial, List.forall_mem_nil _⟩

theorem printable_rootBlocks (record : RootRecord) :
    ∀ s ∈ (rootBlocks record).flatMap Block.statements, s.Printable := by
  intro s hs
  obtain ⟨block, hblock, hs⟩ := List.mem_flatMap.mp hs
  rcases List.mem_cons.mp hblock with rfl | hblock
  · have hheader : (Reader.Statement.header (.element [] "roots")).Printable :=
      ⟨by decide, by decide⟩
    refine printable_block hheader ?_ s hs
    refine List.forall_mem_cons.mpr ⟨printable_pair (by decide) trivial, ?_⟩
    exact printable_emptyList (by decide) record.derivations
  · obtain ⟨derivation, -, rfl⟩ := List.mem_map.mp hblock
    exact printable_derivationBlock derivation s hs

theorem printable_document
    (husage : ∀ record ∈ snapshot.schemes, record.usage.toNat ≤ maxInteger) :
    snapshot.document.Printable := by
  intro s hs
  rw [Document.statements, document, List.flatMap_append, List.mem_append, List.mem_append] at hs
  rcases hs with hs | hs | hs
  · obtain ⟨p, hp, rfl⟩ := List.mem_map.mp hs
    rcases List.mem_append.mp hp with hp | hp
    · exact printable_emptyList (by decide) snapshot.schemes p hp
    · exact printable_emptyList (by decide) snapshot.roots p hp
  · obtain ⟨block, hblock, hs⟩ := List.mem_flatMap.mp hs
    obtain ⟨record, hrecord, rfl⟩ := List.mem_map.mp hblock
    exact printable_schemeBlock (husage record hrecord) s hs
  · obtain ⟨block, hblock, hs⟩ := List.mem_flatMap.mp hs
    obtain ⟨record, hrecord, hblock⟩ := List.mem_flatMap.mp hblock
    exact printable_rootBlocks record s (List.mem_flatMap.mpr ⟨block, hblock, hs⟩)

theorem toToml?_eq_none_iff :
    snapshot.toToml? = none ↔ ∃ record ∈ snapshot.schemes, maxInteger < record.usage.toNat := by
  simp [toToml?]

theorem ofToml?_toToml? (hyears : snapshot.HasFourDigitYears) {text : String}
    (h : snapshot.toToml? = some text) : ofToml? text = some snapshot := by
  rw [toToml?] at h
  split at h
  · next husage =>
    obtain rfl := Option.some.inj h
    have hread := Document.read?_chars (printable_document (by simpa using husage))
    rw [ofToml?, Entries.ofText?, Document.text, String.toList_ofList, hread]
    exact ofEntries?_document hyears
  · simp at h

end Triliteral.Snapshot
