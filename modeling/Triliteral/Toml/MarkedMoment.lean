import Triliteral.Toml.Moment
import Triliteral.Toml.Reader

/-!
Moments that are marked by a key. Where any value may stand, a table whose first key is the
marking one is not a table but the moment that the string under that key tells; what follows
in the table does not count.
-/

namespace Triliteral.Toml

/-- The key that marks a table as a moment. -/
def markingKey : String := "$__toml_private_datetime"

namespace Entries

def isMarked (entries : Entries) : Bool :=
  entries.head?.map Prod.fst == some markingKey

def markedMoment? : Entries → Option Value
  | (_, .string text) :: _ =>
    (Moment.read? text.toList).map fun moment => .moment (String.ofList moment)
  | _ => none

end Entries

mutual

/-- A value with its marked tables read as moments; none if one of them tells no moment. -/
def Value.readMarked? : Value → Option Value
  | .array growing items => (readMarkedItems? items).map (.array growing)
  | .table origin entries =>
    if Entries.isMarked entries then Entries.markedMoment? entries
    else (readMarkedEntries? entries).map (.table origin)
  | value => some value

def readMarkedItems? : List Value → Option (List Value)
  | [] => some []
  | item :: items => do return (← item.readMarked?) :: (← readMarkedItems? items)

def readMarkedEntries? : List (String × Value) → Option (List (String × Value))
  | [] => some []
  | (key, value) :: entries => do
    return (key, ← value.readMarked?) :: (← readMarkedEntries? entries)

end

/-- The entries of a document that may hold any values. A document that is marked as a whole
has none. -/
def Entries.ofFreeText? (text : String) : Option Entries := do
  let entries ← Entries.ofText? text
  match ← (Value.table .header entries).readMarked? with
  | .table _ entries => return entries
  | _ => none

end Triliteral.Toml
