import Triliteral.Proofs.LeastAnalysis
import Triliteral.Proofs.ProcessSessions
import Triliteral.Proofs.StoredRoots

/-!
What a command leaves in the files. A command that fails changes no file, and neither does one
that succeeds without an effect on the engine; after any other the state file holds the engine,
and the other files are as they were. A state file that cannot be understood is never replaced.
-/

namespace Triliteral

theorem Failure.exitCode_ne_zero (failure : Failure) : failure.exitCode ≠ 0 := by
  cases failure with
  | refused fault => cases fault <;> exact Nat.succ_ne_zero _
  | _ => exact Nat.succ_ne_zero _

namespace Command

open MemoryFiles

variable {settings : Settings} {p : Placeholders} {files : MemoryFiles} {now : Occasion}

theorem Outcome.exitCode_eq_zero_iff {outcome : Outcome} :
    outcome.exitCode = 0 ↔ outcome.failure = none := by
  rw [exitCode]
  cases outcome.failure with
  | none => simp
  | some failure => simpa using failure.exitCode_ne_zero

/-! ### Effects -/

/-- Whether a command that leads from one engine to another has an effect: new roots were added,
a word was found valid, or the command is one that always changes the engine or counts a use. -/
def EngineCommand.HasEffect (now : Occasion) (engine next : Engine) : EngineCommand → Prop
  | .addRoots _ | .loadRoots _ => engine.rootCount < next.rootCount
  | .addScheme .. | .modifyScheme .. | .removeScheme .. | .generate .. => True
  | .validate root word => engine.verdict now root word ≠ .ok []
  | _ => False

theorem Reply.eq_of_done {α : Type} {engine : Engine} {reply : α → Reply}
    {outcome : Except Fault α} (hdone : (ofOutcome engine reply outcome).failure = none) :
    ∃ value, outcome = .ok value ∧ ofOutcome engine reply outcome = reply value := by
  cases outcome with
  | ok value => exact ⟨value, rfl, rfl⟩
  | error fault => cases hdone

theorem EngineCommand.isKept_reply_iff {engine : Engine} (hordered : engine.tree.Ordered)
    {command : EngineCommand} (hdone : (command.reply settings files now engine).failure = none) :
    (command.reply settings files now engine).isKept = true ↔
      command.HasEffect now engine (command.reply settings files now engine).engine := by
  cases command with
  | addRoots texts =>
      obtain ⟨hengine, hkept⟩ := addRoots_eq_loadRoots settings engine texts
      have hreply : (addRoots texts).reply settings files now engine =
          Command.addRoots settings engine texts := rfl
      rw [hreply, HasEffect, hkept, hengine, Engine.rootCount_loadRoots hordered]
      simp
  | loadRoots path =>
      rw [reply_loadRoots] at hdone ⊢
      cases hread : files.read? path with
      | none =>
          rw [hread] at hdone
          cases hdone
      | some text =>
          obtain ⟨hengine, hkept⟩ := loadReply_eq_loadRoots engine path text
          rw [HasEffect, hkept, hengine, Engine.rootCount_loadRoots hordered]
          simp
  | addScheme | modifyScheme | removeScheme | generate =>
      obtain ⟨value, -, hreply⟩ := Reply.eq_of_done hdone
      refine iff_of_true ?_ trivial
      exact (congrArg Reply.isKept hreply).trans rfl
  | validate root word =>
      obtain ⟨⟨names, next⟩, hvalid, hvalidated⟩ := Reply.eq_of_done hdone
      have hverdict : engine.verdict now root word = .ok names := by
        rw [Engine.verdict, hvalid]
        rfl
      have hreply : (validate root word).reply settings files now engine = _ := hvalidated
      rw [hreply, HasEffect, hverdict]
      -- that a word is not valid is an answer and no failure, but changes nothing
      cases names with
      | nil => simp [Reply.isKept, Reply.shown]
      | cons name names => simp [Reply.isKept, Reply.made]
  | showRoot | derivations =>
      obtain ⟨value, -, hreply⟩ := Reply.eq_of_done hdone
      refine iff_of_false ?_ not_false
      exact fun hkept => Bool.false_ne_true ((congrArg Reply.isKept hreply).symm.trans hkept)
  | analyze word =>
      refine iff_of_false ?_ not_false
      change ¬ (Command.analyze settings now engine word).isKept = true
      rw [Command.analyze]
      split <;> exact Bool.false_ne_true
  | listRoots | drawTree | countRoots | listSchemes | popularSchemes =>
      exact iff_of_false Bool.false_ne_true not_false

/-! ### Files -/

theorem keep_of_kept_cases {reply : Reply} (h : reply.isKept = true) (settings : Settings)
    (files : MemoryFiles) :
    (∃ failure directories, (keep settings reply : Run Outcome) files =
      (⟨reply.messages, some failure⟩, { files with directories })) ∨
    ∃ text directories, reply.engine.snapshot.toToml? = some text ∧
      (keep settings reply : Run Outcome) files =
        (reply.outcome, { files with directories }.put settings.statePath text) := by
  rcases Storage.save_cases files settings.statePath reply.engine.snapshot with
    ⟨failure, directories, hsave⟩ | ⟨text, directories, htext, hsave⟩
  · refine .inl ⟨failure, directories, ?_⟩
    rw [Reply.isKept] at h
    rw [keep, h]
    exact run_bind hsave _
  · exact .inr ⟨text, directories, htext, keep_of_kept h hsave⟩

/-- Holds of a command that has an effect on the engine that is opened for it, and leads to the
engine `next`. -/
def ProgramCommand.LeadsTo (settings : Settings) (files : MemoryFiles) (now : Occasion)
    (command : ProgramCommand) (next : Engine) : Prop :=
  ∃ asked p engine, command = .engine asked ∧ settings.parsedPlaceholders = .ok p ∧
    files.perform (Storage.openEngine settings p) = (.ok engine, files) ∧
    next = (engine.run ((asked.requests files).map (now, ·))).2 ∧
    asked.HasEffect now engine next

theorem leadsTo_iff {asked : EngineCommand} {engine next : Engine}
    (hp : settings.parsedPlaceholders = .ok p)
    (hopen : files.perform (Storage.openEngine settings p) = (.ok engine, files)) :
    (ProgramCommand.engine asked).LeadsTo settings files now next ↔
      next = (asked.reply settings files now engine).engine ∧
        asked.HasEffect now engine next := by
  rw [EngineCommand.engine_reply]
  constructor
  · rintro ⟨_, q, opened, hasked, hq, hopened, hnext, heffect⟩
    obtain rfl := ProgramCommand.engine.inj hasked
    obtain rfl : p = q := Except.ok.inj (hp.symm.trans hq)
    obtain rfl : engine = opened := Except.ok.inj (Prod.mk.inj (hopen.symm.trans hopened)).1
    exact ⟨hnext, heffect⟩
  · rintro ⟨hnext, heffect⟩
    exact ⟨asked, p, engine, rfl, hp, hopen, hnext, heffect⟩

theorem leadsTo_unique {command : ProgramCommand} {next other : Engine}
    (h : command.LeadsTo settings files now next)
    (hother : command.LeadsTo settings files now other) : next = other := by
  obtain ⟨asked, p, engine, rfl, hp, hopen, -⟩ := id h
  exact ((leadsTo_iff hp hopen).mp h).1.trans ((leadsTo_iff hp hopen).mp hother).1.symm

inductive ProgramCommand.Ends (settings : Settings) (files : MemoryFiles) (now : Occasion)
    (command : ProgramCommand) : Outcome × MemoryFiles → Prop
  | failed {outcome : Outcome} {failure : Failure} (directories : List String)
      (hfailure : outcome.failure = some failure) :
      Ends settings files now command (outcome, { files with directories })
  | idle {outcome : Outcome} (hdone : outcome.failure = none)
      (hidle : ∀ next, ¬ command.LeadsTo settings files now next) :
      Ends settings files now command (outcome, files)
  | kept {outcome : Outcome} {next : Engine} {text : String} (directories : List String)
      (hdone : outcome.failure = none) (hleads : command.LeadsTo settings files now next)
      (htext : next.snapshot.toToml? = some text) :
      Ends settings files now command
        (outcome, { files with directories }.put settings.statePath text)

theorem ends_failed {outcome : Outcome} {failure : Failure} {command : ProgramCommand}
    (hfailure : outcome.failure = some failure) :
    command.Ends settings files now (outcome, files) :=
  .failed files.directories hfailure

theorem ends_keep {asked : EngineCommand} {engine : Engine} (hordered : engine.tree.Ordered)
    (hp : settings.parsedPlaceholders = .ok p)
    (hopen : files.perform (Storage.openEngine settings p) = (.ok engine, files)) :
    (ProgramCommand.engine asked).Ends settings files now
      ((keep settings (asked.reply settings files now engine) : Run Outcome) files) := by
  cases hfailure : (asked.reply settings files now engine).failure with
  | some failure =>
      rw [keep_of_not_kept (by simp [Reply.isKept, hfailure])]
      exact ends_failed hfailure
  | none =>
      have heffect := EngineCommand.isKept_reply_iff hordered hfailure
      cases hkept : (asked.reply settings files now engine).isKept with
      | false =>
          rw [keep_of_not_kept hkept]
          refine .idle hfailure ?_
          intro next hleads
          obtain ⟨rfl, hnext⟩ := (leadsTo_iff hp hopen).mp hleads
          exact Bool.false_ne_true (hkept.symm.trans (heffect.mpr hnext))
      | true =>
          -- the file is the last thing that is written, so that a failure here comes before it
          have hleads := (leadsTo_iff hp hopen).mpr ⟨rfl, heffect.mp hkept⟩
          rcases keep_of_kept_cases hkept settings files with
            ⟨failure, directories, hkeep⟩ | ⟨text, directories, htext, hkeep⟩
          · rw [hkeep]
            exact .failed directories rfl
          · rw [hkeep]
            exact .kept directories hfailure hleads htext

theorem runEngine_of_unopened (hp : settings.parsedPlaceholders = .ok p) {failure : Failure}
    (hopened : Storage.opened settings p files = .error failure) (now : Occasion)
    (asked : EngineCommand) :
    (runEngine settings now asked : Run Outcome) files = (Outcome.failed failure, files) := by
  have hrun := Storage.openEngine_run settings p files
  rw [hopened] at hrun
  rw [runEngine, hp]
  exact run_bind hrun _

theorem ends_runEngine (settings : Settings) (files : MemoryFiles) (now : Occasion)
    (asked : EngineCommand) :
    (ProgramCommand.engine asked).Ends settings files now
      ((runEngine settings now asked : Run Outcome) files) := by
  cases hp : settings.parsedPlaceholders with
  | error failure =>
      rw [runEngine, hp]
      exact ends_failed rfl
  | ok p =>
      have hrun := Storage.openEngine_run settings p files
      cases hopened : Storage.opened settings p files with
      | error failure =>
          rw [runEngine_of_unopened hp hopened]
          exact ends_failed rfl
      | ok engine =>
          rw [hopened] at hrun
          rw [runEngine_run hp hrun]
          exact ends_keep (Storage.faithful_opened hopened).wellFormed.ordered hp hrun

theorem ends_run (env : Environment) (settings : Settings) (files : MemoryFiles) (now : Occasion)
    (command : ProgramCommand) :
    command.Ends settings files now ((command.run env settings now : Run Outcome) files) := by
  cases command with
  | engine asked => exact ends_runEngine settings files now asked
  | showSettings =>
      have hrun : (ProgramCommand.showSettings.run env settings now : Run Outcome) files =
          (Command.showSettings settings, files) := rfl
      rw [hrun, Command.showSettings]
      cases settings.toToml with
      | ok text => exact .idle rfl (by simp [ProgramCommand.LeadsTo])
      | error failure => exact ends_failed rfl
  | showPaths => exact .idle rfl (by simp [ProgramCommand.LeadsTo])
  | completion shell => exact .idle rfl (by simp [ProgramCommand.LeadsTo])

theorem runEngine_of_unreadable {text : String}
    (hcontent : files.contents.lookup settings.statePath = some text)
    (hbad : settings.statePath ∈ files.failing ∨ Snapshot.ofToml? text = none) (now : Occasion)
    (asked : EngineCommand) :
    ∃ failure, (runEngine settings now asked : Run Outcome) files =
      (Outcome.failed failure, files) := by
  have hloaded : ∃ failure, Storage.loaded files settings.statePath = .error failure := by
    rw [Storage.loaded, hcontent]
    by_cases hpath : settings.statePath ∈ files.failing
    · exact ⟨_, if_pos hpath⟩
    · rw [or_iff_right hpath] at hbad
      simp only [if_neg hpath, hbad]
      exact ⟨_, rfl⟩
  obtain ⟨failure, hloaded⟩ := hloaded
  cases hp : settings.parsedPlaceholders with
  | error failure =>
      rw [runEngine, hp]
      exact ⟨failure, rfl⟩
  | ok p =>
      refine ⟨failure, runEngine_of_unopened hp ?_ now asked⟩
      rw [Storage.opened, hloaded]
      rfl

section

variable {command : ProgramCommand} {outcome : Outcome} {after : MemoryFiles}

theorem ProgramCommand.Ends.contents_eq (h : command.Ends settings files now (outcome, after))
    (hfailed : outcome.exitCode ≠ 0) : after.contents = files.contents := by
  cases h with
  | failed directories hfailure => rfl
  | idle hdone hidle => rfl
  | kept directories hdone hleads htext =>
      exact absurd (Outcome.exitCode_eq_zero_iff.mpr hdone) hfailed

theorem ProgramCommand.Ends.eq_of_idle (h : command.Ends settings files now (outcome, after))
    (hdone : outcome.exitCode = 0) (hidle : ∀ next, ¬ command.LeadsTo settings files now next) :
    after = files := by
  cases h with
  | failed directories hfailure =>
      rw [Outcome.exitCode_eq_zero_iff, hfailure] at hdone
      cases hdone
  | idle hdone hidle => rfl
  | kept directories hdone hleads htext => exact absurd hleads (hidle _)

theorem ProgramCommand.Ends.lookup_of_leadsTo
    (h : command.Ends settings files now (outcome, after)) (hdone : outcome.exitCode = 0)
    {next : Engine} (hleads : command.LeadsTo settings files now next) :
    (∃ text, next.snapshot.toToml? = some text ∧
      after.contents.lookup settings.statePath = some text) ∧
    ∀ path, path ≠ settings.statePath →
      after.contents.lookup path = files.contents.lookup path := by
  cases h with
  | failed directories hfailure =>
      rw [Outcome.exitCode_eq_zero_iff, hfailure] at hdone
      cases hdone
  | idle hdone hidle => exact absurd hleads (hidle next)
  | kept directories hdone hkept htext =>
      obtain rfl := leadsTo_unique hkept hleads
      exact ⟨⟨_, htext, lookup_put _ _ _⟩, fun path hne => lookup_put_of_ne _ hne _⟩

end

/-- What a command leaves in the files, whatever they hold and whichever of them fail. If it
fails, every file is as it was, and so are they if it succeeds without an effect on the engine.
Otherwise the state file holds the engine that the command leads to, and every other file is as
it was. A state file that cannot be read or holds no snapshot makes every command fail that
needs an engine. -/
theorem run_keeps_state (env : Environment) (settings : Settings) (now : Occasion)
    (command : ProgramCommand) (files : MemoryFiles) :
    let outcome := ((command.run env settings now : Run Outcome) files).1
    let after := ((command.run env settings now : Run Outcome) files).2
    (outcome.exitCode ≠ 0 → after.contents = files.contents) ∧
    (outcome.exitCode = 0 → (∀ next, ¬ command.LeadsTo settings files now next) →
      after = files) ∧
    (outcome.exitCode = 0 → ∀ next, command.LeadsTo settings files now next →
      (∃ text, next.snapshot.toToml? = some text ∧
        after.contents.lookup settings.statePath = some text) ∧
      ∀ path, path ≠ settings.statePath →
        after.contents.lookup path = files.contents.lookup path) ∧
    ∀ text, files.contents.lookup settings.statePath = some text →
      settings.statePath ∈ files.failing ∨ Snapshot.ofToml? text = none →
      ∀ asked, command = .engine asked → outcome.exitCode ≠ 0 := by
  intro outcome after
  have hends : command.Ends settings files now (outcome, after) :=
    ends_run env settings files now command
  refine ⟨hends.contents_eq, hends.eq_of_idle, fun hdone next => hends.lookup_of_leadsTo hdone, ?_⟩
  rintro text hcontent hbad asked rfl
  obtain ⟨failure, hrun⟩ := runEngine_of_unreadable hcontent hbad now asked
  have houtcome : outcome = Outcome.failed failure := congrArg Prod.fst hrun
  rw [houtcome]
  exact failure.exitCode_ne_zero

/-- A root is asked to be added twice: where there are no files yet, and where the state file is
no document. -/
theorem run_keeps_state_add_root :
    let command : ProgramCommand := .engine (.addRoots ["درس"])
    let corrupt : MemoryFiles := ⟨[("data/state.toml", "]")], [], []⟩
    let failed := (command.run ⟨[]⟩ plainSettings (Occasion.ofEpoch 0) : Run Outcome) corrupt
    let kept := (command.run ⟨[]⟩ plainSettings (Occasion.ofEpoch 0) : Run Outcome) ⟨[], [], []⟩
    failed.1.exitCode ≠ 0 ∧ failed.2.contents = corrupt.contents ∧
      ∃ text, kept.2.contents.lookup "data/state.toml" = some text := by
  intro command corrupt failed kept
  obtain ⟨hunchanged, -, -, hunreadable⟩ :=
    run_keeps_state ⟨[]⟩ plainSettings (Occasion.ofEpoch 0) command corrupt
  have hfailed := hunreadable "]" rfl (.inr rfl) _ rfl
  obtain ⟨-, -, hkept, -⟩ :=
    run_keeps_state ⟨[]⟩ plainSettings (Occasion.ofEpoch 0) command ⟨[], [], []⟩
  have hleads : command.LeadsTo plainSettings ⟨[], [], []⟩ (Occasion.ofEpoch 0)
      ((Engine.withCatalog .standard).perform (Occasion.ofEpoch 0) (.addRoot "درس")).2 := by
    refine ⟨.addRoots ["درس"], .standard, .withCatalog .standard, rfl, rfl, ?_, rfl, ?_⟩
    · rw [Storage.openEngine_run]
      rfl
    · rw [EngineCommand.HasEffect]
      decide +kernel
  obtain ⟨⟨text, -, htext⟩, -⟩ := hkept (by decide +kernel) _ hleads
  exact ⟨hfailed, hunchanged hfailed, text, htext⟩

end Command

end Triliteral
