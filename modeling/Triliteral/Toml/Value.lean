import Triliteral.Number.Binary64

/-!
Values of the configuration format TOML. A table remembers how it came to be, because that
decides whether a later part of a document may add to it.
-/

namespace Triliteral.Toml

inductive Origin where
  /-- Written in braces, and complete. -/
  | inline
  /-- Named by a header of its own. -/
  | header
  /-- Only named on the way to another table's header. -/
  | implied
  /-- Made by a dotted key. -/
  | dotted
  deriving DecidableEq, Repr

inductive Value where
  | string (text : String)
  | integer (n : Int)
  | float (x : Binary64)
  | boolean (b : Bool)
  /-- A date, a time or both, in normal form. -/
  | moment (text : String)
  /-- An array; only one made by headers can grow. -/
  | array (growing : Bool) (items : List Value)
  | table (origin : Origin) (entries : List (String × Value))
  deriving Repr, Inhabited

abbrev Entries := List (String × Value)

namespace Entries

def get? (entries : Entries) (key : String) : Option Value :=
  entries.lookup key

def replace (entries : Entries) (key : String) (value : Value) : Entries :=
  entries.map fun entry => if entry.1 == key then (key, value) else entry

def erase (entries : Entries) (key : String) : Entries :=
  entries.filter fun entry => entry.1 != key

end Entries

/-- The greatest integer of the format, which has 63 bits and a sign. -/
def maxInteger : Nat := 9223372036854775807

end Triliteral.Toml
