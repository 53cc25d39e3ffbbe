import Triliteral.Command.Basic
import Triliteral.Settings.Conversion

/-!
Levels of the command line: which subcommands lead from one to the next, which options stand
at each of them, and which operands.
-/

namespace Triliteral.Command

inductive Flag where
  | debug
  | configFile
  | stateFile
  | rightToLeft
  | category
  | limit
  | help
  | version
  deriving DecidableEq, Repr

namespace Flag

def short? : Flag → Option Char
  | .debug => some 'd'
  | .configFile => some 'c'
  | .stateFile => some 's'
  | .rightToLeft => none
  | .category => some 't'
  | .limit => some 'n'
  | .help => some 'h'
  | .version => some 'V'

def long : Flag → String
  | .debug => "debug"
  | .configFile => "config"
  | .stateFile => "state"
  | .rightToLeft => "rtl"
  | .category => "type"
  | .limit => "limit"
  | .help => "help"
  | .version => "version"

def takesValue : Flag → Bool
  | .configFile | .stateFile | .category | .limit => true
  | .debug | .rightToLeft | .help | .version => false

def admits : Flag → String → Bool
  | .configFile, value | .stateFile, value => !value.isEmpty
  | .category, value => (Category.ofText? value).isSome
  | .limit, value => (Settings.digitsOf? value.toList).isSome
  | _, _ => true

def everywhere : List Flag :=
  [.debug, .configFile, .stateFile, .rightToLeft, .help, .version]

end Flag

inductive Operation where
  | rootAdd
  | rootList
  | rootShow
  | rootLoad
  | rootTree
  | rootCount
  | schemeAdd
  | schemeModify
  | schemeRemove
  | schemeList
  | schemePopular
  | generate
  | validate
  | analyze
  | derivations
  | configShow
  | configPath
  | completion
  deriving DecidableEq, Repr

namespace Operation

/-- How many operands there can be, if not any number. -/
def most? : Operation → Option Nat
  | .rootAdd => none
  | .rootList | .rootTree | .rootCount | .schemeList | .schemePopular | .configShow
  | .configPath => some 0
  | .rootShow | .rootLoad | .schemeAdd | .schemeRemove | .analyze | .derivations
  | .completion => some 1
  | .schemeModify | .generate | .validate => some 2

def admits : Operation → String → Bool
  | .rootLoad, operand => !operand.isEmpty
  | .completion, operand => (Shell.ofName? operand).isSome
  | _, _ => true

end Operation

inductive Level where
  | top
  | root
  | scheme
  | config
  | operation (kind : Operation)
  deriving DecidableEq, Repr

namespace Level

/-- The subcommands of a level, other than the one for help. -/
def children : Level → List (String × Level)
  | .top =>
    [("root", .root), ("scheme", .scheme), ("generate", .operation .generate),
      ("validate", .operation .validate), ("analyze", .operation .analyze),
      ("derivations", .operation .derivations), ("config", .config),
      ("completion", .operation .completion)]
  | .root =>
    [("add", .operation .rootAdd), ("list", .operation .rootList),
      ("show", .operation .rootShow), ("load", .operation .rootLoad),
      ("tree", .operation .rootTree), ("count", .operation .rootCount)]
  | .scheme =>
    [("add", .operation .schemeAdd), ("modify", .operation .schemeModify),
      ("remove", .operation .schemeRemove), ("list", .operation .schemeList),
      ("popular", .operation .schemePopular)]
  | .config => [("show", .operation .configShow), ("path", .operation .configPath)]
  | .operation _ => []

def flags : Level → List Flag
  | .operation .schemeAdd | .operation .schemeList => .category :: Flag.everywhere
  | .operation .schemePopular => .limit :: Flag.everywhere
  | _ => Flag.everywhere

def flagOfLong? (level : Level) (name : String) : Option Flag :=
  level.flags.find? fun flag => flag.long == name

def flagOfShort? (level : Level) (c : Char) : Option Flag :=
  level.flags.find? fun flag => flag.short? == some c

def helpName : String := "help"

def offersHelp (level : Level) : Bool :=
  !level.children.isEmpty

/-- Whether names lead down to a level on which there is help. -/
def leads : Level → List String → Bool
  | _, [] => true
  | level, name :: rest =>
    match level.children.lookup name with
    | some child => leads child rest
    | none => level.offersHelp && name == helpName && rest.isEmpty

def admits (level : Level) (count : Nat) (operand : String) : Bool :=
  match level with
  | .operation kind =>
    kind.admits operand && (kind.most?.map fun most => decide (count < most)).getD true
  | _ => false

end Level

end Triliteral.Command
