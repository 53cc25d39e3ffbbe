import Triliteral.Proofs.StateFile

/-!
Commands carried out in processes of their own, each of which opens the engine from the state
file and keeps there what it changed, have the outcomes of the same commands in one session on
an engine that stays in memory.
-/

namespace Triliteral.Command

open MemoryFiles

variable {settings : Settings} {p : Placeholders} {ticks : Ticks}

/-! ### Outcomes -/

/-- Holds of two outcomes of a command that end alike and, unless the command draws the tree,
tell the same up to the occasions. -/
def Outcome.Agrees (settings : Settings) (ticks : Ticks) (command : EngineCommand)
    (a b : Outcome) : Prop :=
  a.failure = b.failure ∧
    (command ≠ .drawTree → List.Forall₂ (Message.Agrees settings ticks) a.messages b.messages)

/-- Relates outcomes of the same commands, one command after the other. -/
inductive CommandByCommand (related : EngineCommand → Outcome → Outcome → Prop) :
    List EngineCommand → List Outcome → List Outcome → Prop
  | nil : CommandByCommand related [] [] []
  | cons {command : EngineCommand} {a b : Outcome} {commands : List EngineCommand}
      {as bs : List Outcome} (head : related command a b)
      (tail : CommandByCommand related commands as bs) :
      CommandByCommand related (command :: commands) (a :: as) (b :: bs)

theorem CommandByCommand.imp {related related' : EngineCommand → Outcome → Outcome → Prop}
    (himp : ∀ command a b, related command a b → related' command a b)
    {commands : List EngineCommand} {as bs : List Outcome}
    (h : CommandByCommand related commands as bs) : CommandByCommand related' commands as bs := by
  induction h with
  | nil => exact .nil
  | cons head _ ih => exact .cons (himp _ _ _ head) ih

theorem Outcome.eq_of_agrees (hticks : ∀ tick ∈ ticks, tick.left = tick.right)
    {command : EngineCommand} {a b : Outcome} (h : a.Agrees settings ticks command b)
    (hcommand : command ≠ .drawTree) : a = b := by
  obtain ⟨messages, failure⟩ := a
  obtain ⟨hfailure, hmessages⟩ := h
  have hequal : messages = b.messages := by
    refine List.forall₂_eq_eq_eq ▸ (hmessages hcommand).imp fun x y hxy => ?_
    cases hxy with
    | refl => rfl
    | detail h | line h => rw [Derivation.eq_of_agrees hticks h]
    | @choice word root now now' _ htick =>
        have hsame : now = now' := hticks _ htick
        rw [hsame]
  subst hfailure hequal
  rfl

theorem EngineCommand.outcomes_agree {a b : Engine} (h : a.Agrees ticks b) {now now' : Occasion}
    {command : EngineCommand} (htick : ⟨now, now', command.named a⟩ ∈ ticks)
    (settings : Settings) (files : MemoryFiles) :
    let left := command.reply settings files now a
    let right := command.reply settings files now' b
    left.outcome.Agrees settings ticks command right.outcome ∧ left.isKept = right.isKept ∧
      left.engine.Agrees ticks right.engine := by
  by_cases hdraws : command = .drawTree
  · subst hdraws
    exact ⟨⟨rfl, fun hne => absurd rfl hne⟩, rfl, h⟩
  · have hreply : (command.reply settings files now a).Agrees settings ticks
        (command.reply settings files now' b) := agrees_reply h htick hdraws
    obtain ⟨hmessages, hengine, hchanged, hfailure⟩ := hreply
    refine ⟨⟨hfailure, fun _ => hmessages⟩, ?_, hengine⟩
    rw [Reply.isKept, Reply.isKept, hchanged, hfailure]

/-! ### Runs over files in memory -/

variable {files start : MemoryFiles}

theorem keep_of_not_kept {reply : Reply} (h : reply.isKept = false) :
    (keep settings reply : Run Outcome) files = (reply.outcome, files) := by
  rw [Reply.isKept] at h
  rw [keep, h]
  rfl

theorem keep_of_kept {reply : Reply} (h : reply.isKept = true) {after : MemoryFiles}
    (hpersist : files.perform (Storage.persist settings reply.engine) = (.ok (), after)) :
    (keep settings reply : Run Outcome) files = (reply.outcome, after) := by
  rw [Reply.isKept] at h
  rw [keep, h]
  exact run_bind hpersist _

theorem runEngine_run (hp : settings.parsedPlaceholders = .ok p) {engine : Engine}
    (hopen : files.perform (Storage.openEngine settings p) = (.ok engine, files))
    (now : Occasion) (command : EngineCommand) :
    (runEngine settings now command : Run Outcome) files =
      (keep settings (command.reply settings files now engine) : Run Outcome) files := by
  rw [runEngine, hp]
  refine (run_bind hopen _).trans ?_
  exact run_bind (command.perform_run now engine) _

theorem runEach_cons (now : Occasion) (command : EngineCommand)
    (rest : List (Occasion × EngineCommand)) :
    (runEach settings ((now, command) :: rest) : Run (List Outcome)) files =
      let first := (runEngine settings now command : Run Outcome) files
      let later := (runEach settings rest : Run (List Outcome)) first.2
      (first.1 :: later.1, later.2) :=
  rfl

theorem runSession_cons (engine : Engine) (now : Occasion) (command : EngineCommand)
    (rest : List (Occasion × EngineCommand)) :
    (runSession settings engine ((now, command) :: rest) : Run (List Outcome × Engine)) files =
      let reply := command.reply settings files now engine
      let later := (runSession settings reply.engine rest : Run (List Outcome × Engine)) files
      ((reply.outcome :: later.1.1, later.1.2), later.2) := by
  rw [runSession]
  exact run_bind (command.perform_run now engine) _

/-- A command sees of the files only those that it reads. -/
theorem EngineCommand.reply_congr (hfailing : files.failing = start.failing)
    (hcontents : ∀ path, path ≠ settings.statePath →
      files.contents.lookup path = start.contents.lookup path)
    {command : EngineCommand} (hcommand : command ≠ .loadRoots settings.statePath)
    (now : Occasion) (engine : Engine) :
    command.reply settings files now engine = command.reply settings start now engine := by
  cases command with
  | loadRoots path =>
      have hpath : path ≠ settings.statePath := by
        rintro rfl
        exact hcommand rfl
      rw [reply_loadRoots, reply_loadRoots, read?, read?, hfailing, hcontents path hpath]
  | _ => rfl

/-! ### The simulation -/

/-- The files hold an engine that agrees with the one in memory, and are otherwise as they were at
the start. -/
structure Held (settings : Settings) (p : Placeholders) (ticks : Ticks) (start : MemoryFiles)
    (engine held : Engine) (files : MemoryFiles) : Prop where
  opens : files.perform (Storage.openEngine settings p) = (.ok held, files)
  agrees : engine.Agrees ticks held
  faithful : held.Faithful p
  years : held.snapshot.HasFourDigitYears
  failing_eq : files.failing = start.failing
  contents_eq : ∀ path, path ≠ settings.statePath →
    files.contents.lookup path = start.contents.lookup path

/-- One command, in memory and in a process of its own. -/
theorem Held.step (hp : settings.parsedPlaceholders = .ok p)
    (hpath : settings.statePath ∉ start.failing)
    (hparent : start.ParentReachable settings.statePath) {engine held : Engine}
    (h : Held settings p ticks start engine held files) {now now' : Occasion}
    {command : EngineCommand} (htick : ⟨now, now', command.named engine⟩ ∈ ticks)
    (hyear : now'.time.HasFourDigitYear) (hcommand : command ≠ .loadRoots settings.statePath)
    (husage : (command.reply settings start now engine).engine.UsagesFit) :
    let reply := command.reply settings start now engine
    let process := (runEngine settings now' command : Run Outcome) files
    reply.outcome.Agrees settings ticks command process.1 ∧
      ∃ next, Held settings p ticks start reply.engine next process.2 := by
  intro reply process
  obtain ⟨hopens, hagrees, hfaithful, hyears, hfailing, hcontents⟩ := h
  obtain ⟨houtcome, hkept, hengine⟩ := command.outcomes_agree hagrees htick settings start
  have hprocess := runEngine_run hp hopens now' command
  rw [command.reply_congr hfailing hcontents hcommand now' held] at hprocess
  cases hright : (command.reply settings start now' held).isKept with
  | false =>
      have hafter : process = ((command.reply settings start now' held).outcome, files) :=
        hprocess.trans (keep_of_not_kept hright)
      have hengine_eq : reply.engine = engine := command.engine_of_not_kept (hkept.trans hright)
      rw [hafter, hengine_eq]
      exact ⟨houtcome, held, hopens, hagrees, hfaithful, hyears, hfailing, hcontents⟩
  | true =>
      have hfaithful' : (command.reply settings start now' held).engine.Faithful p :=
        command.faithful_reply hfaithful now'
      have hyears' :
          (command.reply settings start now' held).engine.snapshot.HasFourDigitYears := by
        rw [Engine.hasFourDigitYears_snapshot_iff] at hyears ⊢
        intro derivation hmem
        rcases EngineCommand.mem_derivations_reply hfaithful.wellFormed hmem with hold | htime
        · exact hyears derivation hold
        · rwa [htime]
      have husage' : (command.reply settings start now' held).engine.UsagesFit := by
        rw [Engine.UsagesFit, ← hengine.registry_eq]
        exact husage
      rw [← hfailing] at hpath
      obtain ⟨after, hpersist, hopens', hfailing', hcontents'⟩ :=
        Storage.persist_run hpath (hparent.congr hfailing) hyears' husage' p
      have hafter : process = ((command.reply settings start now' held).outcome, after) :=
        hprocess.trans (keep_of_kept hright hpersist)
      rw [hafter]
      refine ⟨houtcome, _, hopens', hengine.restored hfaithful', Engine.faithful_restore p _,
        Engine.hasFourDigitYears_restore hyears', hfailing'.trans hfailing, ?_⟩
      intro path hne
      exact (hcontents' path hne).trans (hcontents path hne)

def sessionEngine (settings : Settings) (files : MemoryFiles) (engine : Engine)
    (steps : List (Occasion × EngineCommand)) : Engine :=
  ((runSession settings engine steps : Run (List Outcome × Engine)) files).1.2

theorem sessionEngine_cons (engine : Engine) (now : Occasion) (command : EngineCommand)
    (rest : List (Occasion × EngineCommand)) :
    sessionEngine settings files engine ((now, command) :: rest) =
      sessionEngine settings files (command.reply settings files now engine).engine rest := by
  rw [sessionEngine, runSession_cons]
  rfl

/-- The steps of a session and of processes, with what a command of the session chooses among. -/
def sessionTicks (settings : Settings) (files : MemoryFiles) :
    Engine → List (Occasion × Occasion × EngineCommand) → Ticks
  | _, [] => ∅
  | engine, (now, now', command) :: rest =>
    insert ⟨now, now', command.named engine⟩
      (sessionTicks settings files (command.reply settings files now engine).engine rest)

theorem exists_step_of_mem_sessionTicks {engine : Engine}
    {commands : List (Occasion × Occasion × EngineCommand)} {tick : Tick}
    (h : tick ∈ sessionTicks settings files engine commands) :
    ∃ step ∈ commands, tick.left = step.1 ∧ tick.right = step.2.1 := by
  induction commands generalizing engine with
  | nil => exact h.elim
  | cons step rest ih =>
      rcases h with rfl | h
      · exact ⟨step, List.mem_cons_self, rfl, rfl⟩
      · obtain ⟨later, hlater, hsame⟩ := ih h
        exact ⟨later, List.mem_cons_of_mem _ hlater, hsame⟩

/-- Commands on the occasions on which a session carries them out, and on those of the
processes. -/
theorem Held.run (hp : settings.parsedPlaceholders = .ok p)
    (hpath : settings.statePath ∉ start.failing)
    (hparent : start.ParentReachable settings.statePath) {engine held : Engine}
    (h : Held settings p ticks start engine held files)
    {commands : List (Occasion × Occasion × EngineCommand)}
    (hticks : sessionTicks settings start engine commands ⊆ ticks)
    (hcommands : ∀ step ∈ commands,
      step.2.1.time.HasFourDigitYear ∧ step.2.2 ≠ .loadRoots settings.statePath)
    (husage : ∀ taken ∈ commands.inits, (sessionEngine settings start engine
      (taken.map fun (now, _, command) => (now, command))).UsagesFit) :
    let session := (runSession settings engine
      (commands.map fun (now, _, command) => (now, command)) :
        Run (List Outcome × Engine)) start
    let processes := (runEach settings
      (commands.map fun (_, now, command) => (now, command)) : Run (List Outcome)) files
    CommandByCommand (Outcome.Agrees settings ticks)
        (commands.map fun (_, _, command) => command) session.1.1 processes.1 ∧
      ∃ last, Held settings p ticks start session.1.2 last processes.2 := by
  induction commands generalizing engine held files with
  | nil => exact ⟨.nil, held, h⟩
  | cons step rest ih =>
      obtain ⟨now, now', command⟩ := step
      have htick := hticks (Set.mem_insert _ _)
      obtain ⟨hyear, hcommand⟩ := hcommands _ List.mem_cons_self
      have hfirst : (command.reply settings start now engine).engine.UsagesFit := by
        have htaken := husage [(now, now', command)] (by simp)
        rwa [List.map_singleton, sessionEngine_cons] at htaken
      obtain ⟨houtcome, next, hnext⟩ := h.step hp hpath hparent htick hyear hcommand hfirst
      have hrest := ih hnext (fun tick hlater => hticks (Set.mem_insert_of_mem _ hlater))
        (fun step hstep => hcommands step (List.mem_cons_of_mem _ hstep)) ?_
      · obtain ⟨houtcomes, last, hlast⟩ := hrest
        simp only [List.map_cons, runSession_cons, runEach_cons]
        exact ⟨.cons houtcome houtcomes, last, hlast⟩
      · intro taken htaken
        have hlater := husage ((now, now', command) :: taken) (by simpa using htaken)
        rwa [List.map_cons, sessionEngine_cons] at hlater

/-- Commands that are carried out one process at a time come to the same as in one session on an
engine that is opened once and stays in memory. Whatever the commands are, as long as no roots are
loaded from the state file and the usage counters keep to the file format, both have the same
outcomes, command by command; they can differ in the clock readings that are shown, in which of the
schemes that make a word they name, and in how the tree is drawn. The last state file holds the
engine of the session. -/
theorem processes_refine_session (hp : settings.parsedPlaceholders = .ok p)
    (hpath : settings.statePath ∉ files.failing)
    (hparent : files.ParentReachable settings.statePath)
    (hstate : Storage.StateReadable settings files)
    {commands : List (Occasion × Occasion × EngineCommand)}
    (hcommands : ∀ step ∈ commands,
      step.2.1.time.HasFourDigitYear ∧ step.2.2 ≠ .loadRoots settings.statePath) :
    ∃ engine, files.perform (Storage.openEngine settings p) = (.ok engine, files) ∧
      ((∀ taken ∈ commands.inits, (sessionEngine settings files engine
          (taken.map fun (now, _, command) => (now, command))).UsagesFit) →
        let ticks := sessionTicks settings files engine commands
        let asked := commands.map fun (_, _, command) => command
        let session := (runSession settings engine
          (commands.map fun (now, _, command) => (now, command)) :
            Run (List Outcome × Engine)) files
        let processes := (runEach settings
          (commands.map fun (_, now, command) => (now, command)) : Run (List Outcome)) files
        CommandByCommand (Outcome.Agrees settings ticks) asked session.1.1 processes.1 ∧
        ((∀ step ∈ commands, step.1 = step.2.1) →
          CommandByCommand
            (fun command a b => a.exitCode = b.exitCode ∧ (command ≠ .drawTree → a = b))
            asked session.1.1 processes.1) ∧
        ∃ last, processes.2.perform (Storage.openEngine settings p) =
            (.ok last, processes.2) ∧
          session.1.2.Agrees ticks last) := by
  obtain ⟨engine, hopens, hfaithful, hyears⟩ := Storage.openEngine_of_readable hpath hstate
  refine ⟨engine, hopens, ?_⟩
  intro husage ticks asked session processes
  have hheld : Held settings p ticks files engine engine files :=
    ⟨hopens, Engine.agrees_refl hfaithful.wellFormed.ordered, hfaithful, hyears, rfl,
      fun _ _ => rfl⟩
  obtain ⟨houtcomes, last, hlast⟩ :=
    hheld.run hp hpath hparent (subset_refl _) hcommands husage
  refine ⟨houtcomes, ?_, last, hlast.opens, hlast.agrees⟩
  intro hsame
  have hticks : ∀ tick ∈ ticks, tick.left = tick.right := by
    intro tick htick
    obtain ⟨step, hstep, hleft, hright⟩ := exists_step_of_mem_sessionTicks htick
    rw [hleft, hright, hsame step hstep]
  refine houtcomes.imp ?_
  intro command a b hagrees
  refine ⟨?_, Outcome.eq_of_agrees hticks hagrees⟩
  rw [Outcome.exitCode, Outcome.exitCode, hagrees.1]

def plainSettings : Settings where
  dataDirectory := "data"
  stateFile := none
  rootsFile := none
  placeholders := "فعل"
  rightToLeft := false
  maxSearchSpace := 1000

/-- Commands that a session gives at the beginning of the epoch, and that processes are given a
minute later; the first adds one root of three, the last but one fails. -/
def homework : List (Occasion × Occasion × EngineCommand) :=
  [.addRoots ["درس", "در", "درس"], .generate "درس" "فاعل", .derivations "درس",
    .removeScheme "مصدر", .drawTree].map (Occasion.ofEpoch 0, Occasion.ofEpoch 60, ·)

theorem processes_refine_session_homework :
    let nothing : MemoryFiles := ⟨[], [], []⟩
    let session := (runSession plainSettings (.withCatalog .standard)
      (homework.map fun (now, _, command) => (now, command)) :
        Run (List Outcome × Engine)) nothing
    let processes := (runEach plainSettings
      (homework.map fun (_, now, command) => (now, command)) : Run (List Outcome)) nothing
    session.1.1.map Outcome.exitCode = [0, 0, 0, 66, 0] ∧
      CommandByCommand
        (Outcome.Agrees plainSettings
          (sessionTicks plainSettings nothing (.withCatalog .standard) homework))
        (homework.map fun (_, _, command) => command) session.1.1 processes.1 := by
  intro nothing
  have hfresh : nothing.perform (Storage.openEngine plainSettings .standard) =
      (.ok (.withCatalog .standard), nothing) := by
    rw [Storage.openEngine_run]
    rfl
  have hp : plainSettings.parsedPlaceholders = .ok .standard := rfl
  have hpath : plainSettings.statePath ∉ nothing.failing := List.not_mem_nil
  have hparent : nothing.ParentReachable plainSettings.statePath := by decide
  have hstate : Storage.StateReadable plainSettings nothing := by
    intro path hroots
    cases hroots
  have hcommands : ∀ step ∈ homework,
      step.2.1.time.HasFourDigitYear ∧ step.2.2 ≠ .loadRoots plainSettings.statePath := by
    decide +kernel
  obtain ⟨engine, hopens, hrefines⟩ :=
    processes_refine_session hp hpath hparent hstate hcommands
  obtain rfl : engine = .withCatalog .standard :=
    Except.ok.inj (Prod.mk.inj (hopens.symm.trans hfresh)).1
  exact ⟨by decide +kernel, (hrefines (by decide +kernel)).1⟩

end Triliteral.Command
