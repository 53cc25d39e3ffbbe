import Triliteral.Instant.Reader
import Triliteral.Snapshot
import Triliteral.Toml.Printer
import Triliteral.Toml.Reader

/-!
Snapshots as TOML documents. A record is written as a block of its own under the name of its
list; a list without records is written as an empty array. Reading is more liberal: a record
may also be an inline table, or an array of its fields in order.
-/

namespace Triliteral

namespace Snapshot

open Toml

/-! ### Writing -/

def pairOf (key : String) (value : Value) : Pair := ⟨[], key, value⟩

def schemeBlock (record : SchemeRecord) : Block where
  header := .element [] "schemes"
  pairs :=
    pairOf "name" (.string record.name) ::
      (record.pattern.map fun pattern => pairOf "pattern" (.string pattern)).toList ++
      [pairOf "dynamic" (.boolean record.dynamic),
        pairOf "scheme_type" (.string record.category.name),
        pairOf "usage" (.integer record.usage.toNat)]

def derivationBlock (derivation : Derivation) : Block where
  header := .element ["roots"] "derivations"
  pairs :=
    [pairOf "word" (.string derivation.word), pairOf "scheme" (.string derivation.scheme),
      pairOf "timestamp" (.string derivation.recordedAt.text)]

/-- The pair that stands for a list of records, if it is empty. -/
def emptyList (key : String) (records : List α) : List Pair :=
  if records.isEmpty then [pairOf key (.array false [])] else []

def rootBlocks (record : RootRecord) : List Block :=
  ⟨.element [] "roots",
    pairOf "root" (.string record.root) :: emptyList "derivations" record.derivations⟩ ::
    record.derivations.map derivationBlock

def document (snapshot : Snapshot) : Document where
  opening := emptyList "schemes" snapshot.schemes ++ emptyList "roots" snapshot.roots
  blocks := snapshot.schemes.map schemeBlock ++ snapshot.roots.flatMap rootBlocks

def toToml? (snapshot : Snapshot) : Option String :=
  if snapshot.schemes.all fun record => record.usage.toNat ≤ maxInteger then
    some snapshot.document.text
  else none

/-! ### Reading -/

/-- The fields of a record with the given names: the entries of a table, or the items of an
array in the order of the names. -/
def fields? (names : List String) : Value → Option Entries
  | .table _ entries => some entries
  | .array _ items => some (names.zip items)
  | _ => none

def string? : Value → Option String
  | .string text => some text
  | _ => none

def boolean? : Value → Option Bool
  | .boolean b => some b
  | _ => none

def counter? : Value → Option UInt64
  | .integer n => if 0 ≤ n then some (.ofNat n.toNat) else none
  | _ => none

def instant? (value : Value) : Option Instant :=
  string? value >>= Instant.ofText?

/-- A category by its exact name, or by a table that has this name as its only key and nothing
under it. -/
def category? : Value → Option Category
  | .string name => Category.ofName? name
  | .table _ [(name, .table _ [])] => Category.ofName? name
  | .table _ [(name, .array _ [])] => Category.ofName? name
  | _ => none

def records? (record? : Value → Option α) : Value → Option (List α)
  | .array _ items => items.mapM record?
  | _ => none

def required? (read : Value → Option α) (entries : Entries) (key : String) : Option α :=
  entries.get? key >>= read

def optional? (read : Value → Option α) (default : α) (entries : Entries) (key : String) :
    Option α :=
  match entries.get? key with
  | none => some default
  | some value => read value

def schemeRecord? (value : Value) : Option SchemeRecord := do
  let fields ← fields? ["name", "pattern", "dynamic", "scheme_type", "usage"] value
  let name ← required? string? fields "name"
  let pattern ← optional? (fun value => (string? value).map some) none fields "pattern"
  let dynamic ← required? boolean? fields "dynamic"
  let category ← optional? category? .custom fields "scheme_type"
  let usage ← optional? counter? 0 fields "usage"
  return { name, pattern, dynamic, category, usage }

def derivation? (value : Value) : Option Derivation := do
  let fields ← fields? ["word", "scheme", "timestamp"] value
  let word ← required? string? fields "word"
  let scheme ← required? string? fields "scheme"
  let recordedAt ← required? instant? fields "timestamp"
  return { word, scheme, recordedAt }

def rootRecord? (value : Value) : Option RootRecord := do
  let fields ← fields? ["root", "derivations"] value
  let root ← required? string? fields "root"
  let derivations ← optional? (records? derivation?) [] fields "derivations"
  return { root, derivations }

def ofEntries? (entries : Entries) : Option Snapshot := do
  let schemes ← optional? (records? schemeRecord?) [] entries "schemes"
  let roots ← optional? (records? rootRecord?) [] entries "roots"
  return { schemes, roots }

def ofToml? (text : String) : Option Snapshot :=
  Entries.ofText? text >>= ofEntries?

end Snapshot

end Triliteral
