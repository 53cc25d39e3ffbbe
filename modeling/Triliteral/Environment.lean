import Triliteral.Files.Path

/-!
Environments: the variables with which a process is started, and the places that they name.
-/

namespace Triliteral

structure Environment where
  bindings : List (String × String)
  deriving DecidableEq, Repr

namespace Environment

/-- The value of a variable. An environment is a list of texts `NAME=VALUE`, and what is
looked for is such a text that begins with the name and an equals sign. -/
def get? (env : Environment) (name : String) : Option String :=
  if name.isEmpty then none
  else
    env.bindings.findSome? fun (key, value) =>
      (List.isPrefixOf? (name ++ "=").toList (key ++ "=" ++ value).toList).map String.ofList

def home? (env : Environment) : Option String :=
  (env.get? "HOME").filter fun path => !path.isEmpty

/-- The directory of the user's configuration files. One that is named must be absolute. -/
def configHome? (env : Environment) : Option String := do
  let home ← env.home?
  match env.get? "XDG_CONFIG_HOME" with
  | some path => if Path.isAbsolute path then return path else return Path.join home ".config"
  | none => return Path.join home ".config"

end Environment

end Triliteral
