import Triliteral.Command.Arguments
import Triliteral.Command.Reply
import Triliteral.Settings.Load

/-!
Running the program once: settings are loaded, the engine is opened from the state file, the
command is carried out, and the state is written back only if the command changed it. A
session carries out commands on an engine that stays in memory instead.
-/

namespace Triliteral.Command

structure Outcome where
  messages : List Message
  failure : Option Failure
  deriving DecidableEq, Repr

namespace Outcome

def silent : Outcome := ⟨[], none⟩

def failed (failure : Failure) : Outcome := ⟨[], some failure⟩

def exitCode (outcome : Outcome) : Nat :=
  match outcome.failure with
  | some failure => failure.exitCode
  | none => 0

/-- All messages; a failure is told last. -/
def allMessages (outcome : Outcome) : List Message :=
  outcome.messages ++ (outcome.failure.map fun failure => .error failure.message).toList

def output (colors : Bool) (outcome : Outcome) : String :=
  Message.renderAll colors (outcome.allMessages.filter fun message => !message.isProblem)

def problems (colors : Bool) (outcome : Outcome) : String :=
  Message.renderAll colors (outcome.allMessages.filter Message.isProblem)

end Outcome

def Reply.outcome (reply : Reply) : Outcome :=
  ⟨reply.messages, reply.failure⟩

variable {m : Type → Type} [Monad m] [Files m]

/-- Persists the engine of a reply if it is to be kept. What was said before a failure to
persist has been said. -/
def keep (settings : Settings) (reply : Reply) : m Outcome := do
  if reply.failure.isNone && reply.changed then
    match ← (Storage.persist settings reply.engine : ExceptT Failure m Unit).run with
    | .ok () => return reply.outcome
    | .error failure => return ⟨reply.messages, some failure⟩
  else return reply.outcome

def runEngine (settings : Settings) (now : Occasion) (command : EngineCommand) : m Outcome := do
  match settings.parsedPlaceholders with
  | .error failure => return Outcome.failed failure
  | .ok p =>
    match ← (Storage.openEngine settings p : ExceptT Failure m Engine).run with
    | .error failure => return Outcome.failed failure
    | .ok engine => keep settings (← command.perform settings now engine)

/-- Carries out commands one after the other, each as a run of its own. -/
def runEach (settings : Settings) : List (Occasion × EngineCommand) → m (List Outcome)
  | [] => return []
  | (now, command) :: rest => do
    let outcome ← runEngine settings now command
    return outcome :: (← runEach settings rest)

def runSession (settings : Settings) (engine : Engine) :
    List (Occasion × EngineCommand) → m (List Outcome × Engine)
  | [] => return ([], engine)
  | (now, command) :: rest => do
    let reply ← command.perform settings now engine
    let (outcomes, last) ← runSession settings reply.engine rest
    return (reply.outcome :: outcomes, last)

def showSettings (settings : Settings) : Outcome :=
  match settings.toToml with
  | .ok text => ⟨[.plain text], none⟩
  | .error failure => Outcome.failed failure

def showPaths (env : Environment) (settings : Settings) : Outcome :=
  ⟨[match Settings.globalPath? env with
      | some path => .action "global" path
      | none => .warning "no config directory on this platform",
    .action "state" settings.statePath], none⟩

/-- The settings of an invocation: its options go over all layers. -/
def Invocation.settings (env : Environment) (invocation : Invocation) :
    ExceptT Failure m Settings := do
  let settings ← Settings.load env invocation.configFile
  return { settings with
    stateFile := invocation.stateFile.or settings.stateFile
    rightToLeft := settings.rightToLeft || invocation.rightToLeft }

/-- Carries out a command under settings. No completions are offered for any shell, so asking for
them prints nothing. -/
def ProgramCommand.run (env : Environment) (settings : Settings) (now : Occasion) :
    ProgramCommand → m Outcome
  | .engine command => runEngine settings now command
  | .showSettings => return Command.showSettings settings
  | .showPaths => return Command.showPaths env settings
  | .completion _ => return Outcome.silent

/-- Carries out an invocation. Completions do without settings. -/
def Invocation.run (env : Environment) (now : Occasion) (invocation : Invocation) :
    m Outcome := do
  match invocation.command with
  | none | some (.completion _) => return Outcome.silent
  | some command =>
    match ← (invocation.settings env : ExceptT Failure m Settings).run with
    | .error failure => return Outcome.failed failure
    | .ok settings => command.run env settings now

end Triliteral.Command
