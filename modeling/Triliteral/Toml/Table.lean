import Triliteral.Toml.Value

/-!
Building tables. A table grows by dotted keys, by headers of tables and by headers of array
elements, and no part of it can be defined twice.
-/

namespace Triliteral.Toml

abbrev KeyPath := List String

structure Pair where
  path : KeyPath
  key : String
  value : Value
  deriving Repr

inductive Header where
  /-- `[path.key]` -/
  | table (path : KeyPath) (key : String)
  /-- `[[path.key]]` -/
  | element (path : KeyPath) (key : String)
  deriving DecidableEq, Repr

structure Block where
  header : Header
  pairs : List Pair
  deriving Repr

structure Document where
  opening : List Pair
  blocks : List Block
  deriving Repr

namespace Entries

/-- Whether a path may lead through a table. Headers lead through all tables but inline ones,
dotted keys through none that has a header. -/
def admits (fresh : Origin) (origin : Origin) : Bool :=
  match fresh with
  | .dotted => origin == .implied || origin == .dotted
  | _ => origin != .inline

/-- Changes the table at the end of a path. Tables missing on the way are made, and remember
`fresh` as their origin; a growing array is entered at its last element. The change is told
the origin of the table it applies to. -/
def changeAt (fresh : Origin) (change : Origin → Entries → Option Entries) :
    KeyPath → Origin → Entries → Option Entries
  | [], origin, entries => change origin entries
  | key :: path, _, entries =>
    match entries.get? key with
    | none => do
      let inner ← changeAt fresh change path fresh []
      return entries ++ [(key, .table fresh inner)]
    | some (.table origin inner) =>
      if admits fresh origin then do
        let inner ← changeAt fresh change path origin inner
        return entries.replace key (.table origin inner)
      else none
    | some (.array true items) =>
      match items.getLast? with
      | some (.table origin inner) => do
        let inner ← changeAt fresh change path origin inner
        return entries.replace key (.array true (items.dropLast ++ [.table origin inner]))
      | _ => none
    | some _ => none

def define (key : String) (value : Value) (entries : Entries) : Option Entries :=
  match entries.get? key with
  | none => some (entries ++ [(key, value)])
  | some _ => none

/-- Adds a pair to a table. A dotted key must end in a table made by dotted keys. -/
def addPair (pair : Pair) (entries : Entries) : Option Entries :=
  match pair.path with
  | [] => define pair.key pair.value entries
  | path =>
    changeAt .dotted
      (fun origin inner => if origin = .dotted then define pair.key pair.value inner else none)
      path .header entries

def addPairs (pairs : List Pair) (entries : Entries) : Option Entries :=
  pairs.foldlM (fun entries pair => addPair pair entries) entries

/-- Adds a block to a document. A table may have been implied before but not defined, and
takes its place in the order now; an array must be one that grows. -/
def addBlock (block : Block) (entries : Entries) : Option Entries :=
  match block.header with
  | .table path key =>
    changeAt .implied
      (fun _ parent =>
        match parent.get? key with
        | none => do
          let inner ← addPairs block.pairs []
          return parent ++ [(key, .table .header inner)]
        | some (.table .implied inner) => do
          let inner ← addPairs block.pairs inner
          return parent.erase key ++ [(key, .table .header inner)]
        | some _ => none)
      path .header entries
  | .element path key =>
    changeAt .implied
      (fun _ parent => do
        let element := Value.table .header (← addPairs block.pairs [])
        match parent.get? key with
        | none => return parent ++ [(key, .array true [element])]
        | some (.array true items) => return parent.replace key (.array true (items ++ [element]))
        | some _ => none)
      path .header entries

end Entries

def Document.entries? (document : Document) : Option Entries := do
  let entries ← Entries.addPairs document.opening []
  document.blocks.foldlM (fun entries block => Entries.addBlock block entries) entries

end Triliteral.Toml
