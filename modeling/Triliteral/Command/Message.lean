import Triliteral.Environment

/-!
Messages to the person at the terminal: what kind of message it is, which of the two output
streams it goes to, and how it is written with and without colors.
-/

namespace Triliteral.Command

/-- One message; every message ends its line. -/
inductive Message where
  | success (text : String)
  | failure (text : String)
  | action (label text : String)
  | header (text : String)
  /-- Belongs to the header above. -/
  | detail (text : String)
  | plain (text : String)
  | warning (text : String)
  | error (text : String)
  deriving DecidableEq, Repr

inductive Style where
  | green
  | red
  | yellow
  | boldRed
  | boldCyan
  deriving DecidableEq, Repr

namespace Style

def codes : Style → String
  | .green => "32"
  | .red => "31"
  | .yellow => "33"
  | .boldRed => "1;31"
  | .boldCyan => "1;36"

def paint (colors : Bool) (style : Style) (text : String) : String :=
  if colors then "\x1b[" ++ style.codes ++ "m" ++ text ++ "\x1b[0m" else text

end Style

namespace Message

def isProblem : Message → Bool
  | .warning _ | .error _ => true
  | _ => false

def render (colors : Bool) : Message → String
  | .success text => Style.green.paint colors "✓" ++ " " ++ text
  | .failure text => Style.red.paint colors "✗" ++ " " ++ text
  | .action label text => Style.green.paint colors label ++ ": " ++ text
  | .header text => Style.boldCyan.paint colors text
  | .detail text => "  " ++ text
  | .plain text => text
  | .warning text => Style.yellow.paint colors "Warning" ++ ": " ++ text
  | .error text => Style.boldRed.paint colors "error" ++ ": " ++ text

def renderAll (colors : Bool) (messages : List Message) : String :=
  String.join (messages.map fun message => message.render colors ++ "\n")

/-- Whether messages have colors. The environment can force or forbid them; otherwise a
terminal has them unless the environment says that it has none. -/
def wantsColors (env : Environment) (onTerminal : Bool) : Bool :=
  let allows (name : String) : Bool := env.get? name != some "0"
  if (env.get? "CLICOLOR_FORCE").isSome && allows "CLICOLOR_FORCE" then true
  else if (env.get? "NO_COLOR").isSome then false
  else onTerminal && allows "CLICOLOR"

end Message

end Triliteral.Command
