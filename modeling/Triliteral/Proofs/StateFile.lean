import Triliteral.Proofs.CleanRestoration
import Triliteral.Proofs.CommandReplies

/-!
The state file between two processes. An engine that is persisted is opened again as it was,
up to the shape of its tree.
-/

namespace Triliteral

namespace Engine

theorem hasFourDigitYears_snapshot_iff {engine : Engine} :
    engine.snapshot.HasFourDigitYears ↔
      ∀ derivation ∈ engine.tree.derivations, derivation.recordedAt.HasFourDigitYear := by
  simp only [Snapshot.HasFourDigitYears, snapshot, List.forall_mem_map, RootEntry.toRecord,
    RootTree.mem_derivations]
  constructor
  · rintro h derivation ⟨entry, hentry, hmem⟩
    exact h entry hentry derivation hmem
  · intro h entry hentry derivation hmem
    exact h derivation ⟨entry, hentry, hmem⟩

theorem hasFourDigitYears_restore {p : Placeholders} {snapshot : Snapshot}
    (h : snapshot.HasFourDigitYears) : (restore p snapshot).1.snapshot.HasFourDigitYears := by
  rw [hasFourDigitYears_snapshot_iff]
  intro derivation hmem
  obtain ⟨record, hrecord, hmem⟩ := mem_derivations_restoreRoots hmem
  exact h record hrecord derivation hmem

/-- Holds of an engine whose usage counters have a place in the state file. -/
def UsagesFit (engine : Engine) : Prop :=
  ∀ scheme ∈ engine.registry.schemes, scheme.usage.toNat ≤ Toml.maxInteger

instance (engine : Engine) : Decidable engine.UsagesFit :=
  inferInstanceAs (Decidable (∀ _ ∈ _, _))

theorem toToml?_snapshot_eq_none_iff {engine : Engine} :
    engine.snapshot.toToml? = none ↔ ¬ engine.UsagesFit := by
  simp only [Snapshot.toToml?_eq_none_iff, snapshot, List.mem_map, exists_exists_and_eq_and,
    UsagesFit, not_forall, Nat.not_le, exists_prop]
  rfl

/-- Holds of an engine whose schemes are compiled or are those of the catalog, with the uses
counted since. -/
def KeepsCatalogRules (engine : Engine) : Prop :=
  ∀ scheme ∈ engine.registry.schemes, scheme.isDynamic = false →
    ∃ entry ∈ Catalog.schemes, scheme = { entry with usage := scheme.usage }

/-- Whatever requests led to an engine, its snapshot tells all of it if no rule is missing from
the catalog. -/
theorem Initial.faithful_of_catalogRules {p : Placeholders} {start : Engine}
    (hstart : Initial p start) (steps : List (Occasion × Request))
    (hrules : (start.run steps).2.KeepsCatalogRules) :
    (start.run steps).2.Faithful (start.run steps).2.placeholders := by
  have hpatterns := hstart.patternsCompile_run steps
  refine ⟨hstart.faithful.wellFormed.run steps, ?_, rfl⟩
  intro scheme hscheme
  cases hrule : scheme.rule with
  | explicit word =>
      obtain ⟨entry, hentry, heq⟩ := hrules scheme hscheme (by simp [Scheme.isDynamic, hrule,
        Rule.source?])
      rw [heq]
      exact Scheme.restorable_of_mem_catalog hentry _
  | compiled pattern =>
      exact Scheme.restorable_of_compiled hrule (hpatterns scheme hscheme pattern hrule)

theorem Faithful.keepsCatalogRules {p : Placeholders} {engine : Engine} (h : engine.Faithful p) :
    engine.KeepsCatalogRules := by
  intro scheme hscheme hexplicit
  have hrestorable := h.restorable scheme hscheme
  rw [Scheme.Restorable] at hrestorable
  cases hrule : scheme.rule with
  | explicit word =>
      rw [hrule] at hrestorable
      obtain ⟨entry, hfind, heq⟩ := hrestorable
      exact ⟨entry, List.mem_of_find?_eq_some hfind, heq⟩
  | compiled pattern => simp [Scheme.isDynamic, hrule, Rule.source?] at hexplicit

theorem Faithful.snapshot_restore {p : Placeholders} {engine : Engine} (h : engine.Faithful p) :
    (restore p engine.snapshot).1.snapshot = engine.snapshot := by
  obtain ⟨hregistry, hentries, -⟩ := h.restore_snapshot
  rw [snapshot, hregistry, hentries, snapshot]

theorem Faithful.map_fst_generate_restore {p : Placeholders} {engine : Engine}
    (h : engine.Faithful p) (now : Occasion) (text name : String) :
    ((restore p engine.snapshot).1.generate now text name).map Prod.fst =
      (engine.generate now text name).map Prod.fst := by
  have hagrees : engine.Agrees {⟨now, now, []⟩} (restore p engine.snapshot).1 := h.agrees_restore
  rcases outcomesAgree_iff.mp (hagrees.generate (Set.mem_singleton _) text name) with
    ⟨x, y, hleft, hright, hword, -⟩ | ⟨fault, hleft, hright⟩
  · rw [hleft, hright]
    exact congrArg Except.ok hword.symm
  · rw [hleft, hright]

end Engine

namespace Storage

open MemoryFiles

variable {settings : Settings} {p : Placeholders} {files : MemoryFiles}

def opened (settings : Settings) (p : Placeholders) (files : MemoryFiles) :
    Except Failure Engine := do
  match ← loaded files settings.statePath with
  | some snapshot => return (Engine.restore p snapshot).1
  | none =>
    match settings.rootsFile with
    | none => return Engine.withCatalog p
    | some path =>
      match files.read? path with
      | some text => return ((Engine.withCatalog p).loadRoots (RootsFile.candidates text)).2
      | none => throw (.io (.readRoots path))

def openingWarnings (settings : Settings) (p : Placeholders) (files : MemoryFiles) : List String :=
  match loaded files settings.statePath with
  | .ok (some snapshot) => (Engine.restore p snapshot).2.warnings settings.statePath
  | _ => []

theorem openWithWarnings_run (settings : Settings) (p : Placeholders) (files : MemoryFiles) :
    files.perform (openWithWarnings settings p) =
      ((opened settings p files).map (·, openingWarnings settings p files), files) := by
  have hload := load_run files settings.statePath
  rw [openWithWarnings, opened, openingWarnings]
  cases hloaded : loaded files settings.statePath with
  | error failure =>
      rw [hloaded] at hload
      exact perform_bind_of_error hload _
  | ok found =>
      rw [hloaded] at hload
      rw [perform_bind_of_ok hload]
      cases found with
      | some snapshot => rfl
      | none =>
          cases hfile : settings.rootsFile with
          | none => rfl
          | some path =>
              have hroots := loadRoots_run files path (Engine.withCatalog p)
              simp only [ok_bind]
              cases hread : files.read? path with
              | some text =>
                  rw [hread] at hroots
                  exact perform_bind_of_ok hroots _
              | none =>
                  rw [hread] at hroots
                  exact perform_bind_of_error hroots _

theorem openEngine_run (settings : Settings) (p : Placeholders) (files : MemoryFiles) :
    files.perform (openEngine settings p) = (opened settings p files, files) := by
  have hopen := openWithWarnings_run settings p files
  rw [openEngine]
  cases hopened : opened settings p files with
  | ok engine =>
      rw [hopened] at hopen
      exact perform_bind_of_ok hopen _
  | error failure =>
      rw [hopened] at hopen
      exact perform_bind_of_error hopen _

/-- Holds of files in which an engine can be opened: the state file holds a snapshot with times
in the years 0 to 9999, or there is none and the roots to begin with can be read. -/
def StateReadable (settings : Settings) (files : MemoryFiles) : Prop :=
  match files.contents.lookup settings.statePath with
  | some text => ∃ snapshot, Snapshot.ofToml? text = some snapshot ∧ snapshot.HasFourDigitYears
  | none => ∀ path, settings.rootsFile = some path → ∃ text, files.read? path = some text

theorem openWithWarnings_of_content {text : String} {snapshot : Snapshot}
    (hpath : settings.statePath ∉ files.failing)
    (hcontent : files.contents.lookup settings.statePath = some text)
    (hsnapshot : Snapshot.ofToml? text = some snapshot) :
    files.perform (openWithWarnings settings p) =
      (.ok ((Engine.restore p snapshot).1,
        (Engine.restore p snapshot).2.warnings settings.statePath), files) := by
  have hloaded : loaded files settings.statePath = .ok (some snapshot) := by
    simp only [loaded, hcontent, if_neg hpath, hsnapshot]
  rw [openWithWarnings_run, opened, openingWarnings, hloaded]
  rfl

theorem openEngine_of_content {text : String} {snapshot : Snapshot}
    (hpath : settings.statePath ∉ files.failing)
    (hcontent : files.contents.lookup settings.statePath = some text)
    (hsnapshot : Snapshot.ofToml? text = some snapshot) :
    files.perform (openEngine settings p) = (.ok (Engine.restore p snapshot).1, files) := by
  rw [openEngine]
  exact perform_bind_of_ok (openWithWarnings_of_content hpath hcontent hsnapshot) _

theorem openEngine_of_absent (habsent : files.contents.lookup settings.statePath = none)
    (hroots : ∀ path, settings.rootsFile = some path → ∃ text, files.read? path = some text) :
    ∃ texts, files.perform (openEngine settings p) =
      (.ok ((Engine.withCatalog p).loadRoots texts).2, files) := by
  have hloaded : loaded files settings.statePath = .ok none := by
    simp only [loaded, habsent]
  rw [openEngine_run, opened, hloaded, ok_bind]
  cases hfile : settings.rootsFile with
  | none => exact ⟨[], rfl⟩
  | some path =>
      obtain ⟨text, htext⟩ := hroots path hfile
      simp only [htext]
      exact ⟨RootsFile.candidates text, rfl⟩

theorem faithful_loadRoots_withCatalog (p : Placeholders) (texts : List String) :
    ((Engine.withCatalog p).loadRoots texts).2.Faithful p ∧
      ((Engine.withCatalog p).loadRoots texts).2.snapshot.HasFourDigitYears := by
  have hstart : Engine.Initial p (Engine.withCatalog p) := .withCatalog
  let steps : List (Occasion × Request) := [(Occasion.ofEpoch 0, .loadRoots texts)]
  have hsteps : ∀ step ∈ steps, step.2.KeepsFaithful p := by
    simp [steps, Request.KeepsFaithful]
  refine ⟨hstart.faithful_run hsteps, ?_⟩
  rw [Engine.hasFourDigitYears_snapshot_iff]
  intro derivation hmem
  have hrun : derivation ∈ ((Engine.withCatalog p).run steps).2.tree.derivations := hmem
  rcases hstart.faithful.wellFormed.mem_derivations_run hrun with hold | ⟨step, hstep, htime⟩
  · exact absurd hold List.not_mem_nil
  · obtain rfl := List.mem_singleton.mp hstep
    rw [htime]
    change (Instant.ofEpoch 0).HasFourDigitYear
    decide

theorem faithful_opened {engine : Engine} (h : opened settings p files = .ok engine) :
    engine.Faithful p := by
  rw [opened] at h
  cases hloaded : loaded files settings.statePath with
  | error failure =>
      rw [hloaded] at h
      cases h
  | ok found =>
      rw [hloaded, ok_bind] at h
      cases found with
      | some snapshot =>
          obtain rfl := Except.ok.inj h
          exact Engine.faithful_restore p snapshot
      | none =>
          cases hfile : settings.rootsFile with
          | none =>
              simp only [hfile] at h
              obtain rfl := Except.ok.inj h
              exact (faithful_loadRoots_withCatalog p []).1
          | some path =>
              simp only [hfile] at h
              split at h
              · obtain rfl := Except.ok.inj h
                exact (faithful_loadRoots_withCatalog p _).1
              · cases h

theorem openEngine_of_readable (hpath : settings.statePath ∉ files.failing)
    (h : StateReadable settings files) :
    ∃ engine, files.perform (openEngine settings p) = (.ok engine, files) ∧
      engine.Faithful p ∧ engine.snapshot.HasFourDigitYears := by
  rw [StateReadable] at h
  cases hcontent : files.contents.lookup settings.statePath with
  | some text =>
      rw [hcontent] at h
      obtain ⟨snapshot, hsnapshot, hyears⟩ := h
      exact ⟨_, openEngine_of_content hpath hcontent hsnapshot, Engine.faithful_restore p snapshot,
        Engine.hasFourDigitYears_restore hyears⟩
  | none =>
      rw [hcontent] at h
      obtain ⟨texts, hopen⟩ := openEngine_of_absent (p := p) hcontent h
      obtain ⟨hfaithful, hyears⟩ := faithful_loadRoots_withCatalog p texts
      exact ⟨_, hopen, hfaithful, hyears⟩

/-- Persisting changes the state file and no other, and the engine that is then opened is the one
restored from the snapshot. -/
theorem persist_run {engine : Engine} (hpath : settings.statePath ∉ files.failing)
    (hparent : files.ParentReachable settings.statePath)
    (hyears : engine.snapshot.HasFourDigitYears)
    (husage : engine.UsagesFit) (p : Placeholders) :
    ∃ after, files.perform (persist settings engine) = (.ok (), after) ∧
      after.perform (openEngine settings p) =
        (.ok (Engine.restore p engine.snapshot).1, after) ∧
      after.failing = files.failing ∧
      ∀ path, path ≠ settings.statePath →
        after.contents.lookup path = files.contents.lookup path := by
  cases htext : engine.snapshot.toToml? with
  | none => exact absurd husage (Engine.toToml?_snapshot_eq_none_iff.mp htext)
  | some text =>
      obtain ⟨directories, hsave⟩ :=
        @save_of_some engine.snapshot files settings.statePath text htext
      rw [if_pos hparent, if_neg hpath] at hsave
      refine ⟨_, hsave, ?_, rfl, ?_⟩
      · exact openEngine_of_content hpath (lookup_put _ _ _) (Snapshot.ofToml?_toToml? hyears htext)
      · intro path hne
        exact lookup_put_of_ne _ hne text

/-- Persisting and opening gives an engine back. If its usage counters and times have a place in
the file format and its rules are compiled or those of the catalog, then it can be persisted to
any state file that can be written, and no other file is changed. Whatever other files there are
and whichever file of roots the settings name, the engine that is opened then has the same
snapshot, generates the same words of all roots, and answers every later run in the same way on
the same occasions; on other ones it may differ in the times of new derivations and in which of the
schemes that make a word they name. -/
theorem openEngine_persist {p : Placeholders} {start : Engine} (hstart : Engine.Initial p start)
    (steps : List (Occasion × Request)) (hrules : (start.run steps).2.KeepsCatalogRules)
    (husage : (start.run steps).2.UsagesFit)
    (hyears : ∀ derivation ∈ (start.run steps).2.tree.derivations,
      derivation.recordedAt.HasFourDigitYear)
    (settings : Settings) (files : MemoryFiles) (hpath : settings.statePath ∉ files.failing)
    (hparent : files.ParentReachable settings.statePath) :
    let engine := (start.run steps).2
    ∃ after opened, files.perform (persist settings engine) = (.ok (), after) ∧
      after.perform (openEngine settings engine.placeholders) = (.ok opened, after) ∧
      opened.snapshot = engine.snapshot ∧
      (∀ now text name, (opened.generate now text name).map Prod.fst =
        (engine.generate now text name).map Prod.fst) ∧
      (∀ later, (opened.run later).1 = (engine.run later).1) ∧
      (∀ later : List (Occasion × Occasion × Request),
        let responses := (engine.run (later.map fun (now, _, request) => (now, request))).1
        List.Forall₂ (Response.Agrees (ticksOf later responses)) responses
          (opened.run (later.map fun (_, now, request) => (now, request))).1) ∧
      ∀ path, path ≠ settings.statePath →
        after.contents.lookup path = files.contents.lookup path := by
  intro engine
  have hfaithful : engine.Faithful engine.placeholders :=
    hstart.faithful_of_catalogRules steps hrules
  obtain ⟨after, hpersist, hopen, -, hothers⟩ := persist_run hpath hparent
    (Engine.hasFourDigitYears_snapshot_iff.mpr hyears) husage engine.placeholders
  refine ⟨after, _, hpersist, hopen, hfaithful.snapshot_restore,
    hfaithful.map_fst_generate_restore, fun later => ?_, fun later => ?_, hothers⟩
  · exact (hfaithful.agrees_restore.run_eq hfaithful.wellFormed
      (Engine.wellFormed_restore _ _)).symm
  · exact hfaithful.agrees_restore.run hfaithful.wellFormed (Engine.wellFormed_restore _ _)
      (subset_refl _)

def seededSettings : Settings where
  dataDirectory := "data"
  stateFile := none
  rootsFile := some "roots.txt"
  placeholders := "فعل"
  rightToLeft := false
  maxSearchSpace := 1000

/-- The file of roots cannot be read, and the old state file holds no snapshot. -/
theorem openEngine_persist_lesson :
    let files : MemoryFiles :=
      ⟨[("roots.txt", "خرج"), ("data/state.toml", "]")], [], ["roots.txt"]⟩
    let engine := ((Engine.withCatalog .standard).run Engine.lesson).2
    ∃ after opened, files.perform (persist seededSettings engine) = (.ok (), after) ∧
      after.perform (openEngine seededSettings .standard) = (.ok opened, after) ∧
      opened.snapshot = engine.snapshot ∧
      (opened.generate (Occasion.ofEpoch 0) "درس" "مفعلة").map Prod.fst = .ok "مدرسات" ∧
      after.contents.lookup "roots.txt" = some "خرج" := by
  intro files engine
  have hstart : Engine.Initial .standard (Engine.withCatalog .standard) := .withCatalog
  have hlesson : ∀ step ∈ Engine.lesson, step.2.KeepsFaithful .standard := by
    simp [Engine.lesson, Request.KeepsFaithful]
  obtain ⟨after, opened, hpersist, hopen, hsnapshot, hgenerate, -, -, hothers⟩ :=
    openEngine_persist hstart Engine.lesson (hstart.faithful_run hlesson).keepsCatalogRules
      (by decide +kernel) (by decide +kernel) seededSettings files (by decide) (by decide)
  refine ⟨after, opened, hpersist, hopen, hsnapshot, ?_, hothers "roots.txt" (by decide)⟩
  rw [hgenerate]
  decide +kernel

end Storage

end Triliteral
