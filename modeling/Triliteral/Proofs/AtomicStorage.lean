import Triliteral.Proofs.StateFile
import Triliteral.Storage.Held

/-!
Opening and persisting where accesses fail. An attempt that fails leaves the engine that is held and
the contents of all files as they were.
-/

namespace Triliteral.Storage

open MemoryFiles

structure Aftermath (α : Type) where
  result : Except Failure α
  engine : Engine
  files : MemoryFiles

section Attempts

variable {α β : Type} {engine engine' : Engine} {files files' : MemoryFiles}
  {program : Holding Run α}

def attempt (engine : Engine) (files : MemoryFiles) (program : Holding Run α) : Aftermath α :=
  let left := StateT.run (StateT.run program.run engine) files
  ⟨left.1.1, left.1.2, left.2⟩

theorem attempt_aside (engine : Engine) (files : MemoryFiles) (program : ExceptT Failure Run α) :
    attempt engine files (aside program) =
      ⟨(files.perform program).1, engine, (files.perform program).2⟩ :=
  rfl

theorem attempt_eq_iff {result : Except Failure α} :
    attempt engine files program = ⟨result, engine', files'⟩ ↔
      StateT.run (StateT.run program.run engine) files = ((result, engine'), files') := by
  rw [attempt, Aftermath.mk.injEq, Prod.ext_iff, Prod.ext_iff, and_assoc]

theorem attempt_bind_of_ok {a : α} (h : attempt engine files program = ⟨.ok a, engine', files'⟩)
    (next : α → Holding Run β) :
    attempt engine files (program >>= next) = attempt engine' files' (next a) := by
  rw [attempt, ExceptT.run_bind, StateT.run_bind, StateT.run_bind, attempt_eq_iff.mp h]
  rfl

theorem attempt_bind_of_error {failure : Failure}
    (h : attempt engine files program = ⟨.error failure, engine', files'⟩)
    (next : α → Holding Run β) :
    attempt engine files (program >>= next) = ⟨.error failure, engine', files'⟩ := by
  rw [attempt, ExceptT.run_bind, StateT.run_bind, StateT.run_bind, attempt_eq_iff.mp h]
  rfl

end Attempts

variable {settings : Settings} {p : Placeholders} {engine : Engine} {files : MemoryFiles}

/-- What keeps an engine from being persisted, if anything does. -/
def persistFailure? (settings : Settings) (engine : Engine) (files : MemoryFiles) :
    Option Failure :=
  if ¬ engine.UsagesFit then some (.snapshot .unwritable)
  else if ¬ files.ParentReachable settings.statePath then
    some (.io (.createParent settings.statePath))
  else if settings.statePath ∈ files.failing then some (.io (.write settings.statePath))
  else none

theorem persistFailure?_ne_snapshot (hfits : engine.UsagesFit) (fault : SnapshotFault) :
    persistFailure? settings engine files ≠ some (.snapshot fault) := by
  rw [persistFailure?, if_neg (not_not.mpr hfits)]
  split
  · simp
  · split <;> simp

/-- Persisting makes directories before it fails, but not even them for an engine without a text. -/
theorem attempt_persistHeld (settings : Settings) (engine : Engine) (files : MemoryFiles) :
    ∃ directories,
      attempt engine files (persistHeld settings) =
        (match persistFailure? settings engine files with
          | some failure => ⟨.error failure, engine, { files with directories }⟩
          | none =>
            ⟨.ok (), engine, { files with directories }.put settings.statePath
              (engine.snapshot.toToml?.getD "")⟩) ∧
      (¬ engine.UsagesFit → directories = files.directories) := by
  have hattempt : attempt engine files (persistHeld settings) =
      ⟨(files.perform (save settings.statePath engine.snapshot)).1, engine,
        (files.perform (save settings.statePath engine.snapshot)).2⟩ :=
    rfl
  rw [hattempt, persistFailure?]
  cases htext : engine.snapshot.toToml? with
  | none =>
      rw [save_of_none htext, if_pos (Engine.toToml?_snapshot_eq_none_iff.mp htext)]
      exact ⟨files.directories, rfl, fun _ => rfl⟩
  | some text =>
      have hfits : ¬ ¬ engine.UsagesFit := by
        rw [← Engine.toToml?_snapshot_eq_none_iff, htext]
        exact Option.some_ne_none text
      obtain ⟨directories, hsave⟩ :=
        @save_of_some engine.snapshot files settings.statePath text htext
      refine ⟨directories, ?_, fun h => absurd h hfits⟩
      rw [hsave, if_neg hfits]
      by_cases hparent : files.ParentReachable settings.statePath
      · rw [if_pos hparent, if_neg (not_not.mpr hparent)]
        split <;> rfl
      · rw [if_neg hparent, if_pos hparent]

theorem result_persistHeld (settings : Settings) (engine : Engine) (files : MemoryFiles) :
    (attempt engine files (persistHeld settings)).result =
      match persistFailure? settings engine files with
      | some failure => .error failure
      | none => .ok () := by
  obtain ⟨directories, hattempt, -⟩ := attempt_persistHeld settings engine files
  rw [hattempt]
  cases persistFailure? settings engine files <;> rfl

theorem persistHeld_of_error {failure : Failure}
    (h : (attempt engine files (persistHeld settings)).result = .error failure) :
    let left := attempt engine files (persistHeld settings)
    left.engine = engine ∧ (∃ directories, left.files = { files with directories }) ∧
      ∀ fault, failure = .snapshot fault → left.files = files := by
  obtain ⟨directories, hattempt, hdirectories⟩ := attempt_persistHeld settings engine files
  rw [result_persistHeld] at h
  cases hreason : persistFailure? settings engine files with
  | none =>
      rw [hreason] at h
      cases h
  | some reason =>
      rw [hreason] at h hattempt
      obtain rfl := Except.error.inj h
      intro left
      rw [show left = _ from hattempt]
      refine ⟨rfl, ⟨directories, rfl⟩, ?_⟩
      rintro fault rfl
      have hfits : ¬ engine.UsagesFit :=
        fun hfits => persistFailure?_ne_snapshot hfits fault hreason
      rw [hdirectories hfits]

theorem attempt_reopen (settings : Settings) (p : Placeholders) (engine : Engine)
    (files : MemoryFiles) :
    attempt engine files (reopen settings p) =
      match opened settings p files with
      | .ok next => ⟨.ok (), next, files⟩
      | .error failure => ⟨.error failure, engine, files⟩ := by
  have hopen := attempt_aside engine files (openEngine settings p : ExceptT Failure Run Engine)
  rw [openEngine_run] at hopen
  cases hopened : opened settings p files with
  | ok next =>
      rw [hopened] at hopen
      exact attempt_bind_of_ok hopen _
  | error failure =>
      rw [hopened] at hopen
      exact attempt_bind_of_error hopen _

theorem reopen_of_error {failure : Failure}
    (h : (attempt engine files (reopen settings p)).result = .error failure) :
    attempt engine files (reopen settings p) = ⟨.error failure, engine, files⟩ := by
  rw [attempt_reopen] at h ⊢
  cases hopened : opened settings p files with
  | ok next =>
      rw [hopened] at h
      cases h
  | error reason =>
      rw [hopened] at h
      rw [Except.error.inj h]

theorem attempt_reopen_of_absent (habsent : files.contents.lookup settings.statePath = none) :
    attempt engine files (reopen settings p) =
      match settings.rootsFile with
      | none => ⟨.ok (), Engine.withCatalog p, files⟩
      | some path =>
        match files.read? path with
        | some text =>
          ⟨.ok (), ((Engine.withCatalog p).loadRoots (RootsFile.candidates text)).2, files⟩
        | none => ⟨.error (.io (.readRoots path)), engine, files⟩ := by
  have hloaded : loaded files settings.statePath = .ok none := by
    simp only [loaded, habsent]
  rw [attempt_reopen, opened, hloaded, ok_bind]
  cases settings.rootsFile with
  | none => rfl
  | some path =>
      simp only
      cases files.read? path <;> rfl

theorem attempt_reopen_of_content {text : String}
    (hcontent : files.contents.lookup settings.statePath = some text) :
    attempt engine files (reopen settings p) =
      if settings.statePath ∈ files.failing then
        ⟨.error (.io (.read settings.statePath)), engine, files⟩
      else
        match Snapshot.ofToml? text with
        | some snapshot => ⟨.ok (), (Engine.restore p snapshot).1, files⟩
        | none => ⟨.error (.snapshot (.malformed settings.statePath)), engine, files⟩ := by
  by_cases hfailing : settings.statePath ∈ files.failing
  · have hloaded : loaded files settings.statePath = .error (.io (.read settings.statePath)) := by
      simp only [loaded, hcontent, if_pos hfailing]
    rw [attempt_reopen, opened, hloaded, if_pos hfailing]
    rfl
  · rw [if_neg hfailing]
    cases hsnapshot : Snapshot.ofToml? text with
    | some snapshot =>
        have hloaded : loaded files settings.statePath = .ok (some snapshot) := by
          simp only [loaded, hcontent, if_neg hfailing, hsnapshot]
        rw [attempt_reopen, opened, hloaded]
        rfl
    | none =>
        have hloaded : loaded files settings.statePath =
            .error (.snapshot (.malformed settings.statePath)) := by
          simp only [loaded, hcontent, if_neg hfailing, hsnapshot]
        rw [attempt_reopen, opened, hloaded]
        rfl

/-- Opening and persisting fail as a whole. Persisting fails just for the reasons listed by
`persistFailure?`; it then leaves the engine and the contents of all files as they are, and makes no
directory if the reason is that the engine has no text. When opening fails, neither the files nor
the engine that is held are changed. Where there is no state file, a fresh engine with the roots of
the file that the settings name is opened, provided that this file can be read. Where there is a
state file, nothing else is opened than what it holds: opening fails as an access if it cannot be
read, and as a snapshot if it holds none. -/
theorem attempt_allOrNothing (settings : Settings) (p : Placeholders) (engine : Engine)
    (files : MemoryFiles) :
    let state := settings.statePath
    let persisted := attempt engine files (persistHeld settings)
    let reopened := attempt engine files (reopen settings p)
    (persisted.result =
      match persistFailure? settings engine files with
      | some failure => .error failure
      | none => .ok ()) ∧
    (∀ failure, persisted.result = .error failure →
      persisted.engine = engine ∧
      (∃ directories, persisted.files = { files with directories }) ∧
      ∀ fault, failure = .snapshot fault → persisted.files = files) ∧
    (∀ failure, reopened.result = .error failure →
      reopened.engine = engine ∧ reopened.files = files) ∧
    (files.contents.lookup state = none → reopened =
      match settings.rootsFile with
      | none => ⟨.ok (), Engine.withCatalog p, files⟩
      | some path =>
        match files.read? path with
        | some text =>
          ⟨.ok (), ((Engine.withCatalog p).loadRoots (RootsFile.candidates text)).2, files⟩
        | none => ⟨.error (.io (.readRoots path)), engine, files⟩) ∧
    ∀ text, files.contents.lookup state = some text → reopened =
      if state ∈ files.failing then ⟨.error (.io (.read state)), engine, files⟩
      else
        match Snapshot.ofToml? text with
        | some snapshot => ⟨.ok (), (Engine.restore p snapshot).1, files⟩
        | none => ⟨.error (.snapshot (.malformed state)), engine, files⟩ := by
  intro state persisted reopened
  refine ⟨result_persistHeld settings engine files, fun failure => persistHeld_of_error, ?_,
    attempt_reopen_of_absent, fun text => attempt_reopen_of_content⟩
  intro failure hfailure
  have hreopened : reopened = ⟨.error failure, engine, files⟩ := reopen_of_error hfailure
  rw [hreopened]
  exact ⟨rfl, rfl⟩

/-- The state file can neither be written nor read. As long as there is none, opening begins with
the file of roots. -/
theorem attempt_allOrNothing_lesson :
    let engine := ((Engine.withCatalog .standard).run Engine.lesson).2
    let fresh : MemoryFiles := ⟨[("roots.txt", "خرج")], [], ["data/state.toml"]⟩
    let files : MemoryFiles :=
      ⟨[("roots.txt", "خرج"), ("data/state.toml", "]")], [], ["data/state.toml"]⟩
    let persisted := attempt engine fresh (persistHeld seededSettings)
    let reopened := attempt engine files (reopen seededSettings .standard)
    (persisted.result = .error (.io (.write "data/state.toml")) ∧ persisted.engine = engine ∧
      persisted.files.contents = fresh.contents) ∧
    (reopened.result = .error (.io (.read "data/state.toml")) ∧ reopened.engine = engine ∧
      reopened.files = files) ∧
    attempt engine fresh (reopen seededSettings .standard) =
      ⟨.ok (), ((Engine.withCatalog .standard).loadRoots ["خرج"]).2, fresh⟩ := by
  intro engine fresh files persisted reopened
  obtain ⟨hresult, hkept, -, habsent, -⟩ :=
    attempt_allOrNothing seededSettings .standard engine fresh
  obtain ⟨-, -, hunchanged, -, hcontent⟩ :=
    attempt_allOrNothing seededSettings .standard engine files
  have hpersisted : persisted.result = .error (.io (.write "data/state.toml")) := by
    have hreason : persistFailure? seededSettings engine fresh =
        some (.io (.write "data/state.toml")) := by
      decide +kernel
    rw [hreason] at hresult
    exact hresult
  have hreopened : reopened.result = .error (.io (.read "data/state.toml")) :=
    congrArg Aftermath.result ((hcontent "]" (by decide +kernel)).trans (if_pos (by decide)))
  obtain ⟨hengine, ⟨directories, hfiles⟩, -⟩ := hkept _ hpersisted
  refine ⟨⟨hpersisted, hengine, ?_⟩, ⟨hreopened, hunchanged _ hreopened⟩, ?_⟩
  · rw [hfiles]
  · have hread : fresh.read? "roots.txt" = some "خرج" := by decide +kernel
    rw [habsent (by decide +kernel)]
    simp only [seededSettings, hread]
    rfl

end Triliteral.Storage
