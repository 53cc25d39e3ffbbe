import Triliteral.Engine.Restore
import Triliteral.Files.Basic
import Triliteral.RootsFile
import Triliteral.Settings.Basic
import Triliteral.Snapshot.Toml

/-!
Keeping the state of an engine in a file. Opening gives the engine of the state file, or a
fresh one when there is no such file; persisting replaces the file.
-/

namespace Triliteral.Storage

variable {m : Type → Type} [Monad m] [Files m]

def readFile (path : String) (access : Access) : ExceptT Failure m String := do
  match ← (Files.read? path : m (Option String)) with
  | some text => return text
  | none => throw (.io access)

def load (path : String) : ExceptT Failure m (Option Snapshot) := do
  if ← (Files.exists? path : m Bool) then
    let text ← readFile path (.read path)
    match Snapshot.ofToml? text with
    | some snapshot => return some snapshot
    | none => throw (.snapshot (.malformed path))
  else return none

/-- Writes a snapshot to a file. Nothing is touched when the snapshot cannot be written. -/
def save (path : String) (snapshot : Snapshot) : ExceptT Failure m Unit := do
  match snapshot.toToml? with
  | none => throw (.snapshot .unwritable)
  | some text =>
    unless ← (Files.ensureParent path : m Bool) do throw (.io (.createParent path))
    unless ← (Files.write path text : m Bool) do throw (.io (.write path))

def readRoots (path : String) : ExceptT Failure m (List String) := do
  return RootsFile.candidates (← readFile path (.readRoots path))

def loadRoots (path : String) (engine : Engine) : ExceptT Failure m (LoadReport × Engine) := do
  return engine.loadRoots (← readRoots path)

/-- The engine of the state file, with the warnings about what is left out of it. If there is no
such file, a fresh engine with the catalog and the roots of the roots file, if one is named. -/
def openWithWarnings (settings : Settings) (p : Placeholders) :
    ExceptT Failure m (Engine × List String) := do
  match ← load settings.statePath with
  | some snapshot =>
    let (engine, report) := Engine.restore p snapshot
    return (engine, report.warnings settings.statePath)
  | none =>
    match settings.rootsFile with
    | none => return (Engine.withCatalog p, [])
    | some path => return ((← loadRoots path (Engine.withCatalog p)).2, [])

def openEngine (settings : Settings) (p : Placeholders) : ExceptT Failure m Engine := do
  return (← openWithWarnings settings p).1

def persist (settings : Settings) (engine : Engine) : ExceptT Failure m Unit :=
  save settings.statePath engine.snapshot

end Triliteral.Storage
