import Triliteral.Proofs.CommandEffects

/-!
Whole runs of the program. The settings are found without a change to any file, so that a run
leaves in the files what its command leaves there.
-/

namespace Triliteral

open MemoryFiles

namespace Settings

theorem onlyReads_findFile (path : String) : OnlyReads (findFile path) := by
  rw [findFile]
  refine .bind (onlyReads_lift fun _ => rfl) ?_
  rintro (_ | text)
  · refine .bind (onlyReads_lift fun _ => rfl) ?_
    rintro (_ | text)
    · exact onlyReads_throw _
    · exact onlyReads_pure _
  · simp only
    split
    · exact onlyReads_pure _
    · exact onlyReads_throw _

theorem onlyReads_requiredLayer (path : String) : OnlyReads (requiredLayer path) :=
  .bind (onlyReads_findFile path) fun (_, _) => onlyReads_liftExcept _

theorem onlyReads_optionalLayer (path : String) : OnlyReads (optionalLayer path) := by
  refine .bind (onlyReads_lift (onlyReads_findFile path)) ?_
  rintro (_ | ⟨path, text⟩)
  · exact onlyReads_pure _
  · exact onlyReads_liftExcept _

theorem onlyReads_loadFrom (env : Environment) (sources : Sources) :
    OnlyReads (loadFrom env sources) := by
  have hlast : ∀ global chosen overrides,
      OnlyReads (liftM (ofLayers env [defaults env, global, chosen, overrides])) :=
    fun _ _ _ => onlyReads_liftExcept _
  obtain ⟨global | global, chosen | chosen, environment⟩ := sources
  · exact .bind (onlyReads_pure _) fun _ => .bind (onlyReads_pure _) fun _ => hlast _ _ _
  · exact .bind (onlyReads_pure _) fun _ => .bind (onlyReads_requiredLayer _) fun _ => hlast _ _ _
  · exact .bind (onlyReads_optionalLayer _) fun _ => .bind (onlyReads_pure _) fun _ => hlast _ _ _
  · exact .bind (onlyReads_optionalLayer _) fun _ =>
      .bind (onlyReads_requiredLayer _) fun _ => hlast _ _ _

theorem onlyReads_load (env : Environment) (chosen : Option String) :
    OnlyReads (load env chosen) := by
  rw [load]
  cases globalPath? env with
  | none => exact .bind (onlyReads_pure _) fun _ => onlyReads_loadFrom env _
  | some path =>
      refine .bind (onlyReads_lift fun _ => rfl) fun present => ?_
      exact .bind (onlyReads_pure _) fun _ => onlyReads_loadFrom env _

end Settings

namespace Command

variable {env : Environment} {now : Occasion} {files : MemoryFiles}

theorem Invocation.onlyReads_settings (env : Environment) (invocation : Invocation) :
    OnlyReads (invocation.settings env) :=
  .bind (Settings.onlyReads_load env invocation.configFile) fun _ => onlyReads_pure _

theorem Invocation.run_of_command {invocation : Invocation} {command : ProgramCommand}
    (h : invocation.command = some command) (hsettings : ∀ shell, command ≠ .completion shell) :
    (invocation.run env now : Run Outcome) =
      (invocation.settings env : ExceptT Failure Run Settings).run >>= fun
        | .error failure => pure (Outcome.failed failure)
        | .ok settings => command.run env settings now := by
  rw [Invocation.run, h]
  cases command with
  | completion shell => exact absurd rfl (hsettings shell)
  | _ => rfl

/-- A run of the program does nothing, fails for want of settings, or carries out its command
under the settings that it finds. -/
theorem Invocation.run_cases (env : Environment) (now : Occasion) (invocation : Invocation)
    (files : MemoryFiles) :
    (invocation.run env now : Run Outcome) files = (Outcome.silent, files) ∨
    (∃ failure, (invocation.run env now : Run Outcome) files =
      (Outcome.failed failure, files)) ∨
    ∃ command settings, invocation.command = some command ∧
      files.perform (invocation.settings env) = (.ok settings, files) ∧
      (invocation.run env now : Run Outcome) files =
        (command.run env settings now : Run Outcome) files := by
  by_cases hidle : invocation.command = none ∨
      ∃ shell, invocation.command = some (.completion shell)
  · left
    rw [Invocation.run]
    rcases hidle with hcommand | ⟨shell, hcommand⟩ <;> rw [hcommand] <;> rfl
  · right
    push Not at hidle
    obtain ⟨command, hcommand⟩ := Option.ne_none_iff_exists'.mp hidle.1
    rw [Invocation.run_of_command hcommand fun shell h => hidle.2 shell (h ▸ hcommand)]
    have hfiles := invocation.onlyReads_settings env files
    rcases hsettings : files.perform (invocation.settings env) with ⟨failure | settings, after⟩
    · rw [hsettings] at hfiles
      obtain rfl : after = files := hfiles
      exact .inl ⟨failure, run_bind hsettings _⟩
    · rw [hsettings] at hfiles
      obtain rfl : after = files := hfiles
      exact .inr ⟨command, settings, hcommand, rfl, run_bind hsettings _⟩

/-- A run of the program that fails leaves every file as it was, whatever the command line asks
for and however far the run has come. -/
theorem Invocation.contents_of_failed (invocation : Invocation)
    (hfailed : ((invocation.run env now : Run Outcome) files).1.exitCode ≠ 0) :
    ((invocation.run env now : Run Outcome) files).2.contents = files.contents := by
  rcases invocation.run_cases env now files with hrun | ⟨failure, hrun⟩ |
    ⟨command, settings, -, -, hrun⟩
  · rw [hrun]
  · rw [hrun]
  · rw [hrun] at hfailed ⊢
    exact (ends_run env settings files now command).contents_eq hfailed

end Command

end Triliteral
