import Triliteral.Files.Basic
import Triliteral.PathTemplate
import Triliteral.Settings.Basic
import Triliteral.Settings.Layer
import Triliteral.Toml.MarkedMoment

/-!
Loading settings. Built-in values come first, then a global file, a chosen file, and the
variables of the environment; each layer overrides those before it.
-/

namespace Triliteral.Settings

open Toml (Value)

structure Sources where
  /-- A file that need not be there. -/
  global : Option String
  /-- A file that must be there. -/
  chosen : Option String
  environment : Bool

def defaultDataDirectory (env : Environment) : String :=
  match env.home? with
  | some home => Path.join home ".sarf"
  | none => "~/.sarf"

def defaults (env : Environment) : List Assignment :=
  [⟨"data_dir", .string (defaultDataDirectory env)⟩,
    ⟨"placeholders", .string Placeholders.standard.text⟩, ⟨"rtl", .boolean false⟩,
    ⟨"max_search_space", .integer defaultMaxSearchSpace⟩]

/-- The value of a key, converted; it is an error if a value is there that cannot be. -/
def convert? (values : Values) (key : String) (convert : Value → Option α) :
    Except Failure (Option α) :=
  match values.lookup key with
  | none => .ok none
  | some value =>
    match convert value with
    | some converted => .ok (some converted)
    | none => .error (.config (.invalidValue key))

def ofValues (env : Environment) (values : Values) : Except Failure Settings := do
  let dataDirectory ← convert? values "data_dir" textOf?
  let stateFile ← convert? values "state_file" textOf?
  let rootsFile ← convert? values "roots_file" textOf?
  let placeholders ← convert? values "placeholders" textOf?
  let rightToLeft ← convert? values "rtl" truthOf?
  let maxSearchSpace ← convert? values "max_search_space" countOf?
  return {
    dataDirectory := dataDirectory.getD (defaultDataDirectory env)
    stateFile
    rootsFile
    placeholders := placeholders.getD Placeholders.standard.text
    rightToLeft := rightToLeft.getD false
    maxSearchSpace := maxSearchSpace.getD defaultMaxSearchSpace }

def expandPaths (env : Environment) (settings : Settings) : Settings :=
  { settings with
    dataDirectory := PathTemplate.expand env settings.dataDirectory
    stateFile := settings.stateFile.map (PathTemplate.expand env)
    rootsFile := settings.rootsFile.map (PathTemplate.expand env) }

/-- The settings of a stack of layers, the lowest first. The placeholders are checked before
the paths are expanded. -/
def ofLayers (env : Environment) (layers : List (List Assignment)) : Except Failure Settings := do
  let settings ← ofValues env (layers.foldl Layer.apply [])
  let _ ← settings.parsedPlaceholders
  return settings.expandPaths env

variable {m : Type → Type} [Monad m] [Files m]

/-- The text of a settings file and the path it was found under. A path is tried as the absolute
one that it stands for. If there is no file of the name that is given, the name is tried with
the extension of the format. A file that is there must have that extension. -/
def findFile (path : String) : ExceptT Failure m (String × String) := do
  match ← (Files.absolute path >>= Files.read? : m (Option String)) with
  | some text =>
    if Path.extension? path = some "toml" then return (path, text)
    else throw (.config (.unknownFormat path))
  | none =>
    let longer := Path.addExtension path "toml"
    match ← (Files.absolute longer >>= Files.read? : m (Option String)) with
    | some text => return (longer, text)
    | none => throw (.config (.missingFile path))

def parseFile (path text : String) : Except Failure (List Assignment) :=
  match Toml.Entries.ofFreeText? text with
  | some entries => .ok (Layer.ofEntries entries)
  | none => .error (.config (.malformedFile path))

def requiredLayer (path : String) : ExceptT Failure m (List Assignment) := do
  let (path, text) ← findFile path
  parseFile path text

/-- The layer of a file that need not be there: it assigns nothing where none is found. -/
def optionalLayer (path : String) : ExceptT Failure m (List Assignment) := do
  let found : Except Failure (String × String) ← ExceptT.lift (findFile path).run
  match found with
  | .ok (path, text) => parseFile path text
  | .error _ => return []

def loadFrom (env : Environment) (sources : Sources) : ExceptT Failure m Settings := do
  let global ←
    match sources.global with
    | some path => optionalLayer path
    | none => pure []
  let chosen ←
    match sources.chosen with
    | some path => requiredLayer path
    | none => pure []
  let overrides := if sources.environment then Layer.ofEnvironment env else []
  ofLayers env [defaults env, global, chosen, overrides]

def globalPath? (env : Environment) : Option String :=
  env.configHome?.map fun directory => Path.join (Path.join directory "sarf") "sarf.toml"

def load (env : Environment) (chosen : Option String) : ExceptT Failure m Settings := do
  let global ←
    match globalPath? env with
    | none => pure none
    | some path => do
      let present ← (Files.exists? path : m Bool)
      pure (if present then some path else none)
  loadFrom env ⟨global, chosen, true⟩

end Triliteral.Settings
