import Triliteral.Proofs.ProcessSessions
import Triliteral.Proofs.RestorationOutcome
import Triliteral.Proofs.StoredRoots

/-!
A state file under other placeholders. Whoever opens it and keeps a change there leaves the
schemes that can be restored under the placeholders configured now; the others, whose names the
restoration lists, are no longer in the file.
-/

namespace Triliteral

open FirstOccurrences

namespace SchemeRecord

/-- Holds of a record that some engine has saved, under whatever placeholders. -/
def Saved (record : SchemeRecord) : Prop :=
  ∃ (p : Placeholders) (start : Engine) (steps : List (Occasion × Request))
    (files after : MemoryFiles) (path : String), Engine.Initial p start ∧
    record ∈ (start.run steps).2.snapshot.schemes ∧
    files.perform (Storage.save path (start.run steps).2.snapshot) = (.ok (), after)

variable {record : SchemeRecord}

theorem Saved.usage_le (h : record.Saved) : record.usage.toNat ≤ Toml.maxInteger := by
  obtain ⟨p, start, steps, files, after, path, -, hrecord, hsave⟩ := h
  by_contra hlarge
  have hnone : (start.run steps).2.snapshot.toToml? = none :=
    Snapshot.toToml?_eq_none_iff.mpr ⟨record, hrecord, Nat.not_le.mp hlarge⟩
  rw [Storage.save_of_none hnone] at hsave
  cases (Prod.mk.inj hsave).1

theorem Saved.exists_toRecord (h : record.Saved) : ∃ scheme : Scheme, scheme.toRecord = record := by
  obtain ⟨p, start, steps, files, after, path, -, hrecord, -⟩ := h
  obtain ⟨scheme, -, hscheme⟩ := List.mem_map.mp hrecord
  exact ⟨scheme, hscheme⟩

/-- What is written again of a usable record: a dynamic one as it is, any other one with the
category of the built-in scheme of its name. -/
def kept (record : SchemeRecord) : SchemeRecord :=
  match record.dynamic, Catalog.find? record.name with
  | false, some entry => { record with category := entry.category }
  | _, _ => record

theorem Describes.toRecord {p : Placeholders} {other scheme : Scheme}
    (h : other.toRecord.Describes p scheme) : scheme.toRecord = other.toRecord.kept := by
  obtain ⟨name, category, rule, usage⟩ := other
  obtain ⟨name', category', rule', usage'⟩ := scheme
  obtain ⟨hname, husage, hrule⟩ := h
  obtain rfl : name' = name := hname
  obtain rfl : usage' = usage := husage
  cases rule with
  | explicit word =>
      obtain ⟨entry, hentry, rfl, rfl, rfl⟩ := hrule
      obtain ⟨word', hword⟩ := Catalog.exists_rule_eq_explicit hentry
      have hfind : Catalog.find? entry.name = some entry := Catalog.find?_name hentry
      simp [kept, Scheme.toRecord, Scheme.isDynamic, Rule.source?, hword, hfind]
  | compiled pattern =>
      obtain ⟨rfl, rfl⟩ := hrule
      rfl

theorem nodup_filterMap_usableName? {p : Placeholders} {records : List SchemeRecord}
    (hnames : (records.map name).Nodup) : (records.filterMap (usableName? p)).Nodup := by
  have husable : records.filterMap (usableName? p) =
      (records.filter fun record => record.Usable p).map name := by
    clear hnames
    induction records with
    | nil => rfl
    | cons record records ih =>
        by_cases h : record.Usable p <;> simp [usableName?, h, ih]
  rw [husable]
  exact hnames.sublist (List.filter_sublist.map name)

end SchemeRecord

namespace Engine

variable {p : Placeholders} {snapshot : Snapshot} {record : SchemeRecord}

theorem mem_names_restore_iff (hnames : (snapshot.schemes.map SchemeRecord.name).Nodup)
    (hrecord : record ∈ snapshot.schemes) :
    record.name ∈ (restore p snapshot).1.registry.names ↔ record.Usable p := by
  have hschemes := schemesAccounted_restoreSchemes p snapshot.schemes
  rw [Registry.mem_names_iff]
  refine hschemes.exists_find?_iff.trans ⟨?_, fun husable => ⟨record, hrecord, rfl, husable⟩⟩
  rintro ⟨other, hother, hname, husable⟩
  rwa [List.inj_on_of_nodup_map hnames hrecord hother hname.symm]

theorem exists_describes_restore (hnames : (snapshot.schemes.map SchemeRecord.name).Nodup)
    (hrecord : record ∈ snapshot.schemes) (husable : record.Usable p) :
    ∃ scheme ∈ (restore p snapshot).1.registry.schemes, record.Describes p scheme := by
  have hschemes := schemesAccounted_restoreSchemes p snapshot.schemes
  obtain ⟨scheme, hscheme⟩ :=
    Registry.mem_names_iff.mp ((mem_names_restore_iff hnames hrecord).mpr husable)
  obtain ⟨first, hfirst, hdescribes⟩ := hschemes.find?_eq_some_iff.mp hscheme
  obtain ⟨hmem, hkey⟩ := key_of_firstWith? hfirst
  have hname := (SchemeRecord.usableName?_eq_some_iff.mp hkey).1
  obtain rfl := List.inj_on_of_nodup_map hnames hmem hrecord hname
  exact ⟨scheme, List.mem_of_find?_eq_some hscheme, hdescribes⟩

theorem skippedSchemes_restore (hnames : (snapshot.schemes.map SchemeRecord.name).Nodup) :
    (restore p snapshot).2.skippedSchemes =
      (snapshot.schemes.filter fun record => ¬ record.Usable p).map SchemeRecord.name := by
  refine (schemesAccounted_restoreSchemes p snapshot.schemes).skipped_eq.trans ?_
  rw [others_of_nodup (SchemeRecord.nodup_filterMap_usableName? hnames)]
  congr 1
  refine List.filter_congr fun record _ => ?_
  by_cases h : record.Usable p <;> simp [SchemeRecord.usableName?, h]

/-- The records of a restored engine are what is written again of the usable ones. -/
theorem mem_schemes_restore_iff (hnames : (snapshot.schemes.map SchemeRecord.name).Nodup)
    (hschemes : ∀ record ∈ snapshot.schemes, ∃ scheme : Scheme, scheme.toRecord = record) :
    record ∈ (restore p snapshot).1.snapshot.schemes ↔
      ∃ old ∈ snapshot.schemes, old.Usable p ∧ record = old.kept := by
  constructor
  · intro hrecord
    obtain ⟨scheme, hscheme, rfl⟩ := List.mem_map.mp hrecord
    obtain ⟨old, hold, hmade⟩ := exists_record_of_mem_restoreSchemes hscheme
    obtain ⟨husable, hdescribes⟩ := Scheme.ofRecord_eq_ok_iff.mp hmade
    obtain ⟨other, rfl⟩ := hschemes old hold
    exact ⟨_, hold, husable, hdescribes.toRecord⟩
  · rintro ⟨old, hold, husable, rfl⟩
    obtain ⟨scheme, hscheme, hdescribes⟩ := exists_describes_restore hnames hold husable
    obtain ⟨other, rfl⟩ := hschemes old hold
    exact List.mem_map.mpr ⟨scheme, hscheme, hdescribes.toRecord⟩

theorem usagesFit_restore
    (h : ∀ record ∈ snapshot.schemes, record.usage.toNat ≤ Toml.maxInteger) :
    (restore p snapshot).1.UsagesFit := by
  intro scheme hscheme
  obtain ⟨record, hrecord, hmade⟩ := exists_record_of_mem_restoreSchemes hscheme
  rw [Scheme.usage_of_ofRecord hmade]
  exact h record hrecord

theorem addRoot_restore {text : String} (htext : text.length = 3)
    (hnew : text ∉ snapshot.roots.map RootRecord.root) :
    ∃ tree : RootTree, (restore p snapshot).1.addRoot text =
        .ok { (restore p snapshot).1 with tree } ∧
      tree.derivations.Perm (restore p snapshot).1.tree.derivations := by
  have hroots := rootsAccounted_restoreRoots snapshot.roots
  obtain ⟨root, rfl⟩ := Root.exists_text_eq_iff.mpr htext
  have habsent : root ∉ (restore p snapshot).1.tree.roots := by
    intro hmem
    obtain ⟨entry, hentry, rfl⟩ := List.mem_map.mp hmem
    obtain ⟨-, record, hrecord, hroot⟩ := hroots.exists_entry_iff.mp ⟨entry, hentry, rfl⟩
    exact hnew (hroot ▸ List.mem_map_of_mem hrecord)
  have hordered : (restore p snapshot).1.tree.Ordered := hroots.ordered
  refine ⟨RootTree.grow root (restore p snapshot).1.tree, ?_, ?_⟩
  · rw [addRoot_text hordered, if_neg habsent]
  · have hinsert := RootTree.derivations_insert hordered root
    rwa [RootTree.insert_eq hordered, if_neg habsent] at hinsert

end Engine

theorem Command.addRoots_singleton {settings : Settings} {engine next : Engine} {text : String}
    (h : engine.addRoot text = .ok next) :
    addRoots settings engine [text] =
      ⟨[.success ("added " ++ settings.display text)], next, true, none⟩ := by
  simp [addRoots, Additions.add, h]

namespace Storage

open MemoryFiles

section AddedRoot

variable {settings : Settings} {p : Placeholders} {files : MemoryFiles} {text : String}
  {snapshot : Snapshot} {root : String}

/-- A new root is added to the restored engine and written to the file in its place, by itself or
by a command. -/
theorem persist_added_root (hp : settings.parsedPlaceholders = .ok p)
    (hpath : settings.statePath ∉ files.failing)
    (hparent : files.ParentReachable settings.statePath)
    (hcontent : files.contents.lookup settings.statePath = some text)
    (hsnapshot : Snapshot.ofToml? text = some snapshot)
    (husage : ∀ record ∈ snapshot.schemes, record.usage.toNat ≤ Toml.maxInteger)
    (hroot : root.length = 3) (hnew : root ∉ snapshot.roots.map RootRecord.root) :
    ∃ tree written after,
      let engine := (Engine.restore p snapshot).1
      let next : Engine := { engine with tree }
      files.perform (openEngine settings p) = (.ok engine, files) ∧
      engine.addRoot root = .ok next ∧
      files.perform (persist settings next) = (.ok (), after) ∧
      (∀ now, (Command.runEngine settings now (.addRoots [root]) : Run Command.Outcome) files =
        (⟨[.success ("added " ++ settings.display root)], none⟩, after)) ∧
      after.contents.lookup settings.statePath = some written ∧
      next.snapshot.toToml? = some written ∧
      (snapshot.HasFourDigitYears → Snapshot.ofToml? written = some next.snapshot) := by
  obtain ⟨tree, hadd, htree⟩ := Engine.addRoot_restore (p := p) hroot hnew
  let next : Engine := { (Engine.restore p snapshot).1 with tree }
  have hopen := openEngine_of_content (p := p) hpath hcontent hsnapshot
  have hfits : next.UsagesFit := Engine.usagesFit_restore husage
  cases hwritten : next.snapshot.toToml? with
  | none =>
      obtain ⟨record, hrecord, hlarge⟩ := Snapshot.toToml?_eq_none_iff.mp hwritten
      obtain ⟨scheme, hscheme, rfl⟩ := List.mem_map.mp hrecord
      exact absurd (hfits scheme hscheme) (Nat.not_le.mpr hlarge)
  | some written =>
      obtain ⟨directories, hsave⟩ :=
        @save_of_some next.snapshot files settings.statePath written hwritten
      rw [if_pos hparent, if_neg hpath] at hsave
      refine ⟨tree, written, _, hopen, hadd, hsave, fun now => ?_, lookup_put _ _ _, hwritten, ?_⟩
      · have hreply : (Command.EngineCommand.addRoots [root]).reply settings files now
            (Engine.restore p snapshot).1 =
              ⟨[.success ("added " ++ settings.display root)], next, true, none⟩ :=
          Command.addRoots_singleton hadd
        rw [Command.runEngine_run hp hopen, hreply]
        exact Command.keep_of_kept rfl hsave
      · intro hyears
        refine Snapshot.ofToml?_toToml? (Engine.hasFourDigitYears_snapshot_iff.mpr ?_) hwritten
        intro derivation hmem
        exact Engine.hasFourDigitYears_snapshot_iff.mp
          (Engine.hasFourDigitYears_restore (p := p) hyears) derivation (htree.mem_iff.mp hmem)

/-- Adding a root keeps the schemes that are usable under the placeholders configured now, and no
others. The records of dynamic ones stay as they were, those of the others too but for the category,
which is that of the built-in scheme. The names of the other records are those that the restoration
lists, and opening the engine logs a warning about each. -/
theorem added_root_keeps_usable (hp : settings.parsedPlaceholders = .ok p)
    (hpath : settings.statePath ∉ files.failing)
    (hparent : files.ParentReachable settings.statePath)
    (hcontent : files.contents.lookup settings.statePath = some text)
    (hsnapshot : Snapshot.ofToml? text = some snapshot)
    (hnames : (snapshot.schemes.map SchemeRecord.name).Nodup)
    (hsaved : ∀ record ∈ snapshot.schemes, record.Saved)
    (hroot : root.length = 3) (hnew : root ∉ snapshot.roots.map RootRecord.root) :
    ∃ engine next written after,
      files.perform (openEngine settings p) = (.ok engine, files) ∧
      engine.addRoot root = .ok next ∧
      files.perform (persist settings next) = (.ok (), after) ∧
      (∀ now, (Command.runEngine settings now (.addRoots [root]) : Run Command.Outcome) files =
        (⟨[.success ("added " ++ settings.display root)], none⟩, after)) ∧
      after.contents.lookup settings.statePath = some written ∧
      next.snapshot.toToml? = some written ∧
      (snapshot.HasFourDigitYears → Snapshot.ofToml? written = some next.snapshot) ∧
      (∀ record ∈ snapshot.schemes,
        record.name ∈ next.snapshot.schemes.map SchemeRecord.name ↔ record.Usable p) ∧
      (∀ record, record ∈ next.snapshot.schemes ↔
        ∃ old ∈ snapshot.schemes, old.Usable p ∧ record = old.kept) ∧
      let report := (Engine.restore p snapshot).2
      let dropped := (snapshot.schemes.filter fun record => ¬ record.Usable p).map SchemeRecord.name
      report.skippedSchemes = dropped ∧
      files.perform (openWithWarnings settings p) =
        (.ok (engine, report.warnings settings.statePath), files) ∧
      dropped.map (RestoreReport.schemeWarning settings.statePath) <+:
        report.warnings settings.statePath := by
  obtain ⟨tree, written, after, hopen, hadd, hpersist, hcommand, hafter, hwritten, hread⟩ :=
    persist_added_root hp hpath hparent hcontent hsnapshot
      (fun record hrecord => (hsaved record hrecord).usage_le) hroot hnew
  have hskipped := Engine.skippedSchemes_restore (p := p) hnames
  refine ⟨_, _, written, after, hopen, hadd, hpersist, hcommand, hafter, hwritten, hread, ?_,
    fun record => Engine.mem_schemes_restore_iff hnames fun old hold =>
      (hsaved old hold).exists_toRecord,
    hskipped, openWithWarnings_of_content hpath hcontent hsnapshot, ?_⟩
  · intro record hrecord
    rw [← Engine.mem_names_restore_iff hnames hrecord, Engine.snapshot, List.map_map]
    rfl
  · rw [← hskipped, RestoreReport.warnings, List.append_assoc]
    exact List.prefix_append _ _

end AddedRoot

/-! ### A pattern that is lost -/

def latin : Placeholders :=
  ⟨'a', 'b', 'c', by decide, by decide, by decide⟩

def latinSettings : Settings :=
  { Command.plainSettings with placeholders := "abc" }

/-- The catalog with a pattern over the standard placeholders, of which one word was made. -/
def extendedCatalog : Engine :=
  ((Engine.withCatalog .standard).run
    [(Occasion.ofEpoch 0, .addScheme "فعلة" .custom), (Occasion.ofEpoch 0, .addRoot "كتب"),
      (Occasion.ofEpoch 0, .generate "كتب" "فعلة")]).2

theorem exists_text_extendedCatalog :
    ∃ text, extendedCatalog.snapshot.toToml? = some text ∧
      Snapshot.ofToml? text = some extendedCatalog.snapshot := by
  cases htext : extendedCatalog.snapshot.toToml? with
  | none =>
      have hfits : ∀ record ∈ extendedCatalog.snapshot.schemes,
          record.usage.toNat ≤ Toml.maxInteger := by decide +kernel
      obtain ⟨record, hrecord, hlarge⟩ := Snapshot.toToml?_eq_none_iff.mp htext
      exact absurd (hfits record hrecord) (Nat.not_le.mpr hlarge)
  | some text =>
      have hyears : extendedCatalog.snapshot.HasFourDigitYears := by decide +kernel
      exact ⟨text, rfl, Snapshot.ofToml?_toToml? hyears htext⟩

theorem saved_of_mem_extendedCatalog {record : SchemeRecord}
    (h : record ∈ extendedCatalog.snapshot.schemes) : record.Saved := by
  obtain ⟨text, htext, -⟩ := exists_text_extendedCatalog
  obtain ⟨directories, hsave⟩ :=
    @save_of_some extendedCatalog.snapshot ⟨[], [], []⟩ latinSettings.statePath text htext
  rw [if_pos (by decide), if_neg (by decide)] at hsave
  exact ⟨.standard, .withCatalog .standard, _, _, _, _, .withCatalog, h, hsave⟩

theorem nodup_names_extendedCatalog :
    (extendedCatalog.snapshot.schemes.map SchemeRecord.name).Nodup := by
  decide +kernel

def latinFiles (text : String) : MemoryFiles :=
  ⟨[(latinSettings.statePath, text)], [], []⟩

theorem parentReachable_latinFiles (text : String) :
    (latinFiles text).ParentReachable latinSettings.statePath := by
  have hempty : MemoryFiles.ParentReachable ⟨[], [], []⟩ latinSettings.statePath := by decide
  exact hempty.congr rfl

/-- A pattern over other placeholders than those configured now is lost. -/
theorem added_root_loses_pattern :
    ∃ (text : String) (engine next : Engine) (after : MemoryFiles) (written : String)
      (later : Snapshot),
      latinSettings.parsedPlaceholders = .ok latin ∧
      (latinFiles text).contents.lookup latinSettings.statePath = some text ∧
      Snapshot.ofToml? text = some extendedCatalog.snapshot ∧
      (extendedCatalog.snapshot.schemes.map SchemeRecord.name).Nodup ∧
      (∀ record ∈ extendedCatalog.snapshot.schemes,
        Text.isBlankText record.name = false ∧ record.Saved) ∧
      (latinFiles text).perform (openEngine latinSettings latin) =
        (.ok engine, latinFiles text) ∧
      engine.addRoot "درس" = .ok next ∧
      (latinFiles text).perform (persist latinSettings next) = (.ok (), after) ∧
      after.contents.lookup latinSettings.statePath = some written ∧
      Snapshot.ofToml? written = some later ∧
      "فعلة" ∈ extendedCatalog.snapshot.schemes.map SchemeRecord.name ∧
      "فعلة" ∉ later.schemes.map SchemeRecord.name := by
  obtain ⟨text, htext, hread⟩ := exists_text_extendedCatalog
  have hp : latinSettings.parsedPlaceholders = .ok latin := rfl
  have hcontent : (latinFiles text).contents.lookup latinSettings.statePath = some text :=
    lookup_put ⟨[], [], []⟩ _ text
  have hroot : "درس".length = 3 := by decide
  have hnew : "درس" ∉ extendedCatalog.snapshot.roots.map RootRecord.root := by decide +kernel
  have hnamed : ∀ record ∈ extendedCatalog.snapshot.schemes,
      Text.isBlankText record.name = false := by decide +kernel
  have hrecord : ⟨"فعلة", some "فعلة", true, .custom, 1⟩ ∈ extendedCatalog.snapshot.schemes := by
    decide +kernel
  obtain ⟨tree, written, after, hopen, hadd, hpersist, -, hafter, hwritten, hreadAfter⟩ :=
    persist_added_root hp List.not_mem_nil (parentReachable_latinFiles text) hcontent hread
      (fun record hrecord => (saved_of_mem_extendedCatalog hrecord).usage_le) hroot hnew
  have hunusable : ¬ SchemeRecord.Usable latin ⟨"فعلة", some "فعلة", true, .custom, 1⟩ := by
    decide
  have hlost :=
    mt (Engine.mem_names_restore_iff nodup_names_extendedCatalog hrecord).mp hunusable
  refine ⟨text, _, _, after, written, _, hp, hcontent, hread, nodup_names_extendedCatalog,
    fun record hrecord => ⟨hnamed record hrecord, saved_of_mem_extendedCatalog hrecord⟩, hopen,
    hadd, hpersist, hafter, hreadAfter (by decide +kernel), List.mem_map_of_mem hrecord, ?_⟩
  rwa [Engine.snapshot, List.map_map]

/-- Of the schemes of the extended catalog all but the pattern are in the file again, and only the
loss of the pattern is warned about. -/
theorem added_root_keeps_usable_latin :
    ∃ (text : String) (engine next : Engine) (after : MemoryFiles) (written : String),
      Snapshot.ofToml? text = some extendedCatalog.snapshot ∧
      (∀ record ∈ extendedCatalog.snapshot.schemes, record.Saved) ∧
      (latinFiles text).perform (openEngine latinSettings latin) =
        (.ok engine, latinFiles text) ∧
      engine.addRoot "درس" = .ok next ∧
      (latinFiles text).perform (persist latinSettings next) = (.ok (), after) ∧
      after.contents.lookup latinSettings.statePath = some written ∧
      Snapshot.ofToml? written = some next.snapshot ∧
      ⟨"فاعل", none, false, .activeParticiple, 0⟩ ∈ next.snapshot.schemes ∧
      (Engine.restore latin extendedCatalog.snapshot).2.skippedSchemes = ["فعلة"] ∧
      ∃ warnings, (latinFiles text).perform (openWithWarnings latinSettings latin) =
          (.ok (engine, warnings), latinFiles text) ∧
        ["data/state.toml: skipped scheme \x27فعلة\x27 (not restorable)"] <+: warnings := by
  obtain ⟨text, -, hread⟩ := exists_text_extendedCatalog
  have hcontent : (latinFiles text).contents.lookup latinSettings.statePath = some text :=
    lookup_put ⟨[], [], []⟩ _ text
  have hp : latinSettings.parsedPlaceholders = .ok latin := rfl
  have hroot : "درس".length = 3 := by decide
  have hnew : "درس" ∉ extendedCatalog.snapshot.roots.map RootRecord.root := by decide +kernel
  have hrecord : ⟨"فاعل", none, false, .activeParticiple, 0⟩ ∈
      extendedCatalog.snapshot.schemes := by decide +kernel
  have hsaved : ∀ record ∈ extendedCatalog.snapshot.schemes, record.Saved :=
    fun _ => saved_of_mem_extendedCatalog
  obtain ⟨engine, next, written, after, hopen, hadd, hpersist, -, hafter, -, hreadAfter, -, hkept,
      hskipped, hwarnings, hlogged⟩ :=
    added_root_keeps_usable hp List.not_mem_nil (parentReachable_latinFiles text) hcontent hread
      nodup_names_extendedCatalog hsaved hroot hnew
  have hdropped : (extendedCatalog.snapshot.schemes.filter fun record =>
      ¬ record.Usable latin).map SchemeRecord.name = ["فعلة"] := by decide +kernel
  rw [hdropped] at hskipped hlogged
  exact ⟨text, engine, next, after, written, hread, hsaved, hopen, hadd, hpersist, hafter,
    hreadAfter (by decide +kernel), (hkept _).mpr ⟨_, hrecord, by decide, rfl⟩, hskipped, _,
    hwarnings, hlogged⟩

end Storage

end Triliteral
