import Triliteral.Scheme.Category

/-!
The commands of the program.
-/

namespace Triliteral.Command

inductive EngineCommand where
  | addRoots (texts : List String)
  | listRoots
  | showRoot (text : String)
  | loadRoots (path : String)
  | drawTree
  | countRoots
  | addScheme (pattern : String) (category : Category)
  | modifyScheme (name pattern : String)
  | removeScheme (name : String)
  | listSchemes (category : Option Category)
  | popularSchemes (limit : Nat)
  | generate (root scheme : String)
  | validate (root word : String)
  | analyze (word : String)
  | derivations (root : String)
  deriving DecidableEq, Repr

inductive Shell where
  | bash
  | elvish
  | fish
  | powershell
  | zsh
  deriving DecidableEq, Repr

namespace Shell

def all : List Shell := [.bash, .elvish, .fish, .powershell, .zsh]

def name : Shell → String
  | .bash => "bash"
  | .elvish => "elvish"
  | .fish => "fish"
  | .powershell => "powershell"
  | .zsh => "zsh"

def ofName? (name : String) : Option Shell :=
  all.find? fun shell => shell.name == name

end Shell

inductive ProgramCommand where
  | engine (command : EngineCommand)
  | showSettings
  | showPaths
  | completion (shell : Shell)
  deriving DecidableEq, Repr

/-- A command with the options that hold for all commands. Without a command nothing is
done. -/
structure Invocation where
  configFile : Option String
  stateFile : Option String
  rightToLeft : Bool
  command : Option ProgramCommand
  deriving DecidableEq, Repr

end Triliteral.Command
