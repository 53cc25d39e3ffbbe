import Triliteral.Environment
import Triliteral.Settings.Conversion

/-!
Layers of settings. A layer assigns values to keys; a later layer overrides an earlier one
key by key. Keys are compared in lower case, and only the last assignment to a key counts.
-/

namespace Triliteral.Settings

open Toml (Value)

structure Assignment where
  key : String
  value : Value

abbrev Values := List (String × Value)

namespace Layer

def isPartChar (c : Char) : Bool :=
  c.isAlphanum || c == ' ' || c == '_' || c == '-'

def isPadding (c : Char) : Bool :=
  c == ' ' || c == '\t'

/-- Whether digits, with a minus sign or without, write a whole number of 64 bits. -/
def isPosition (negative : Bool) (digits : List Char) : Bool :=
  !digits.isEmpty &&
    Text.Decimal.value digits ≤ Toml.maxInteger + if negative then 1 else 0

def skipPosition (cs : List Char) : Option (List Char) :=
  let cs := cs.dropWhile isPadding
  let negative := cs.head? == some '-'
  let cs := if negative then cs.drop 1 else cs
  if isPosition negative (cs.takeWhile Text.Decimal.isDigit) then
    match (cs.dropWhile Text.Decimal.isDigit).dropWhile isPadding with
    | ']' :: rest => some rest
    | _ => none
  else none

/-- Whether a text is a sequence of steps into a value, each a dot and a name or a position in
brackets; as many of them as the limit. -/
def isSteps : Nat → List Char → Bool
  | _, [] => true
  | 0, _ => false
  | limit + 1, '.' :: rest =>
    !(rest.takeWhile isPartChar).isEmpty && isSteps limit (rest.dropWhile isPartChar)
  | limit + 1, '[' :: rest =>
    match skipPosition rest with
    | some rest => isSteps limit rest
    | none => false
  | _, _ => false

/-- Parts a key into a setting's name and whether the key leads into that setting. A key that
is not made up of parts is a name as a whole. -/
def splitKey (key : String) : String × Bool :=
  let cs := key.toList
  let name := cs.takeWhile isPartChar
  let steps := cs.dropWhile isPartChar
  if !name.isEmpty && !steps.isEmpty && isSteps steps.length steps then
    (lowerCase (String.ofList name), true)
  else (lowerCase key, false)

/-- Stands for a value that has parts of its own, which no setting accepts. -/
def composite : Value := .table .dotted []

def put (values : Values) (name : String) (value : Value) : Values :=
  (name, value) :: values.filter fun entry => entry.1 != name

/-- Makes one assignment. A table is merged into the value that is there, so an empty one
leaves it as it is. -/
def assign (values : Values) (assignment : Assignment) : Values :=
  match splitKey assignment.key, assignment.value with
  | (name, true), _ => put values name composite
  | (name, false), .table _ [] =>
    if (values.lookup name).isSome then values else put values name composite
  | (name, false), value => put values name value

def apply (values : Values) (layer : List Assignment) : Values :=
  layer.foldl assign values

/-- The assignments of a document, in the order of their keys. -/
def ofEntries (entries : Toml.Entries) : List Assignment :=
  (entries.mergeSort fun a b => !decide (b.1 < a.1)).map fun (key, value) => ⟨key, value⟩

def dotted : List Char → List Char
  | '_' :: '_' :: rest => '.' :: dotted rest
  | c :: rest => c :: dotted rest
  | [] => []

def variableStart : String := "sarf_"

/-- The assignment that a variable makes: one to the key that its name is after the common
beginning, in lower case. Two underscores lead into a value. -/
def ofVariable (name value : String) : Option Assignment :=
  (List.isPrefixOf? variableStart.toList (lowerCase name).toList).map fun key =>
    ⟨String.ofList (dotted key), .string value⟩

def ofEnvironment (env : Environment) : List Assignment :=
  env.bindings.filterMap fun (name, value) => ofVariable name value

end Layer

end Triliteral.Settings
