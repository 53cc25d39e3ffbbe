import Triliteral.Command.Level
import Triliteral.Environment

/-!
Reading command lines. A line leads down a tree of levels by the names of subcommands; at
every level options may stand, those of the level and those that hold everywhere. What is
given deeper down wins over what is given above.
-/

namespace Triliteral.Command

inductive Refusal where
  | usage
  | information
  deriving DecidableEq, Repr

namespace Refusal

def exitCode : Refusal → Nat
  | .usage => 2
  | .information => 0

def text : String :=
  "usage: sarf [OPTION]... [COMMAND [SUBCOMMAND] [OPTION]... [OPERAND]...]\n"

end Refusal

namespace Arguments

structure Reading where
  /-- The options with their values, which are empty for options that take none. -/
  given : List (Flag × String)
  /-- An option whose value has been read and is still to be checked. -/
  unchecked : Option (Flag × String)
  operands : List String
  deriving DecidableEq, Repr

namespace Reading

def empty : Reading := ⟨[], none, []⟩

def lookup (reading : Reading) (flag : Flag) : Option String :=
  reading.given.lookup flag

/-- Accepts an option. Only the one for debugging may be repeated; help and version end the
reading. -/
def accept (reading : Reading) (flag : Flag) (value : String) : Except Refusal Reading :=
  if flag = .help ∨ flag = .version then .error .information
  else if flag ≠ .debug ∧ (reading.lookup flag).isSome then .error .usage
  else if flag.admits value then .ok { reading with given := reading.given ++ [(flag, value)] }
  else .error .usage

def settle (reading : Reading) : Except Refusal Reading :=
  match reading.unchecked with
  | some (flag, value) => { reading with unchecked := none }.accept flag value
  | none => .ok reading

def settleAndAccept (reading : Reading) (flag : Flag) (value : String) :
    Except Refusal Reading := do
  (← reading.settle).accept flag value

def addOperand (level : Level) (reading : Reading) (operand : String) :
    Except Refusal Reading := do
  let reading ← reading.settle
  if level.admits reading.operands.length operand then
    return { reading with operands := reading.operands ++ [operand] }
  else throw .usage

def addOperands (level : Level) (reading : Reading) (operands : List String) :
    Except Refusal Reading :=
  operands.foldlM (addOperand level) reading

end Reading

/-- Reads options in their short form from the characters of one argument. An option that
takes a value has the rest of them, less an equals sign, as its value, or if there is no rest
waits for the next argument. -/
def readShort (level : Level) : List Char → Reading → Except Refusal (Reading × Option Flag)
  | [], reading => .ok (reading, none)
  | c :: rest, reading =>
    match level.flagOfShort? c with
    | none => .error .usage
    | some flag =>
      if flag.takesValue then
        match rest with
        | [] => do return (← reading.settle, some flag)
        | '=' :: value => do
          return (← reading.settleAndAccept flag (String.ofList value), none)
        | value => do return (← reading.settleAndAccept flag (String.ofList value), none)
      else do
        let reading ← reading.settleAndAccept flag ""
        readShort level rest reading

def readLong (level : Level) (cs : List Char) (reading : Reading) :
    Except Refusal (Reading × Option Flag) :=
  let name := String.ofList (cs.takeWhile (· != '='))
  match level.flagOfLong? name, cs.dropWhile (· != '=') with
  | none, _ => .error .usage
  | some flag, [] =>
    if flag.takesValue then do return (← reading.settle, some flag)
    else do return (← reading.settleAndAccept flag "", none)
  | some flag, _ :: value =>
    if flag.takesValue then do
      return (← reading.settleAndAccept flag (String.ofList value), none)
    else .error .usage

structure Line where
  /-- The innermost level first. -/
  readings : List Reading
  level : Level
  deriving DecidableEq, Repr

/-- Reads the arguments from a level on, with the readings of the levels above and an option
that waits for its value. -/
def readFrom (above : List Reading) (level : Level) (reading : Reading) :
    Option Flag → List String → Except Refusal Line
  | some _, [] => .error .usage
  | none, [] => .ok ⟨reading :: above, level⟩
  | some flag, argument :: rest =>
    match argument.toList with
    | '-' :: _ :: _ => .error .usage
    | _ => readFrom above level { reading with unchecked := some (flag, argument) } none rest
  | none, argument :: rest =>
    match level.children.lookup argument with
    | some child => readFrom (reading :: above) child .empty none rest
    | none =>
      if level.offersHelp && argument == Level.helpName then
        .error (if level.leads rest then .information else .usage)
      else
        match argument.toList with
        | ['-', '-'] => do return ⟨(← reading.addOperands level rest) :: above, level⟩
        | '-' :: '-' :: cs => do
          let (reading, waiting) ← readLong level cs reading
          readFrom above level reading waiting rest
        | '-' :: c :: cs => do
          let (reading, waiting) ← readShort level (c :: cs) reading
          readFrom above level reading waiting rest
        | _ => do
          let reading ← reading.addOperand level argument
          readFrom above level reading none rest

def commandOf (reading : Reading) : Operation → Option ProgramCommand
  | .rootAdd =>
    if reading.operands.isEmpty then none else some (.engine (.addRoots reading.operands))
  | .rootList => some (.engine .listRoots)
  | .rootShow => reading.operands[0]?.map fun root => .engine (.showRoot root)
  | .rootLoad => reading.operands[0]?.map fun path => .engine (.loadRoots path)
  | .rootTree => some (.engine .drawTree)
  | .rootCount => some (.engine .countRoots)
  | .schemeAdd =>
    let category := (reading.lookup .category).bind Category.ofText?
    reading.operands[0]?.map fun pattern =>
      .engine (.addScheme pattern (category.getD .custom))
  | .schemeModify => do
    return .engine (.modifyScheme (← reading.operands[0]?) (← reading.operands[1]?))
  | .schemeRemove => reading.operands[0]?.map fun name => .engine (.removeScheme name)
  | .schemeList =>
    let category := (reading.lookup .category).bind Category.ofText?
    some (.engine (.listSchemes category))
  | .schemePopular =>
    let limit := (reading.lookup .limit).bind fun value => Settings.digitsOf? value.toList
    some (.engine (.popularSchemes (limit.getD 10)))
  | .generate => do
    return .engine (.generate (← reading.operands[0]?) (← reading.operands[1]?))
  | .validate => do
    return .engine (.validate (← reading.operands[0]?) (← reading.operands[1]?))
  | .analyze => reading.operands[0]?.map fun word => .engine (.analyze word)
  | .derivations => reading.operands[0]?.map fun root => .engine (.derivations root)
  | .configShow => some .showSettings
  | .configPath => some .showPaths
  | .completion => (reading.operands[0]?.bind Shell.ofName?).map .completion

def stateVariable : String := "SARF_STATE"

/-- The path of the state file from the variable. An empty one is invalid at a level that has
no option for it. -/
def stateOfVariable (env : Environment) (readings : List Reading) :
    Except Refusal (Option String) :=
  match env.get? stateVariable with
  | none => .ok none
  | some path =>
    if path.isEmpty && readings.any fun reading => (reading.lookup .stateFile).isNone then
      .error .usage
    else .ok (some path)

/-- The command of a line: none at the top level, and at the other levels that need a
subcommand it is an error that there is none. -/
def lineCommand (line : Line) : Except Refusal (Option ProgramCommand) :=
  match line.level, line.readings with
  | .top, _ => .ok none
  | .operation kind, reading :: _ =>
    match commandOf reading kind with
    | some command => .ok (some command)
    | none => .error .usage
  | _, _ => .error .usage

def read (env : Environment) (arguments : List String) : Except Refusal Invocation := do
  let line ← readFrom [] .top .empty none arguments
  let readings ← line.readings.mapM Reading.settle
  let ofVariable ← stateOfVariable env readings
  let command ← lineCommand { line with readings }
  return {
    configFile := readings.findSome? fun reading => reading.lookup .configFile
    stateFile := (readings.findSome? fun reading => reading.lookup .stateFile).or ofVariable
    rightToLeft := readings.any fun reading => (reading.lookup .rightToLeft).isSome
    command }

end Arguments

end Triliteral.Command
