import Triliteral.Engine.Basic
import Triliteral.Snapshot

/-!
From an engine to its snapshot and back. A snapshot may hold anything, so restoring reports
the records that it could not use.
-/

namespace Triliteral

/-- The records that a restoration left out, in the order in which they came. -/
structure RestoreReport where
  skippedSchemes : List String
  invalidRoots : List String
  duplicateRoots : List String
  deriving DecidableEq, Repr

namespace RestoreReport

def isClean (report : RestoreReport) : Bool :=
  report.skippedSchemes.isEmpty && report.invalidRoots.isEmpty && report.duplicateRoots.isEmpty

def schemeWarning (path name : String) : String :=
  path ++ ": skipped scheme \x27" ++ name ++ "\x27 (not restorable)"

def invalidRootWarning (path root : String) : String :=
  path ++ ": skipped invalid root \x27" ++ root ++ "\x27"

def duplicateRootWarning (path root : String) : String :=
  path ++ ": skipped duplicate root \x27" ++ root ++ "\x27"

def warnings (path : String) (report : RestoreReport) : List String :=
  report.skippedSchemes.map (schemeWarning path) ++
    report.invalidRoots.map (invalidRootWarning path) ++
    report.duplicateRoots.map (duplicateRootWarning path)

end RestoreReport

namespace Scheme

def toRecord (scheme : Scheme) : SchemeRecord where
  name := scheme.name
  pattern := scheme.rule.source?
  dynamic := scheme.isDynamic
  category := scheme.category
  usage := scheme.usage

/-- The scheme that a record describes: a dynamic record with a pattern is compiled under its
own name and category, any other one is looked up in the catalog. The usage is the record's. -/
def ofRecord (p : Placeholders) (record : SchemeRecord) : Except Fault Scheme :=
  match record.pattern, record.dynamic with
  | some pattern, true =>
    (compiled p record.name pattern record.category).map fun scheme =>
      { scheme with usage := record.usage }
  | _, _ =>
    match Catalog.find? record.name with
    | some scheme => .ok { scheme with usage := record.usage }
    | none => .error (.schemeNotFound record.name)

end Scheme

namespace RootEntry

def toRecord (entry : RootEntry) : RootRecord where
  root := entry.root.text
  derivations := entry.derivations

end RootEntry

namespace Engine

def snapshot (engine : Engine) : Snapshot where
  schemes := engine.registry.schemes.map Scheme.toRecord
  roots := engine.tree.entries.map RootEntry.toRecord

/-- Registers the scheme of a record if it is usable and its name is still free, and lists its
name otherwise. -/
def restoreScheme (p : Placeholders) :
    Registry × List String → SchemeRecord → Registry × List String
  | (registry, skipped), record =>
    match Scheme.ofRecord p record >>= registry.add with
    | .ok registry => (registry, skipped)
    | .error _ => (registry, skipped ++ [record.name])

def restoreSchemes (p : Placeholders) (records : List SchemeRecord) : Registry × List String :=
  records.foldl (restoreScheme p) (.empty, [])

structure RestoredRoots where
  tree : RootTree
  invalid : List String
  duplicates : List String

/-- Stores the root of a record with its derivations, each word once. -/
def restoreRoot (restored : RestoredRoots) (record : RootRecord) : RestoredRoots :=
  match Root.ofText? record.root with
  | none => { restored with invalid := restored.invalid ++ [record.root] }
  | some root =>
    match restored.tree.insert root with
    | (.alreadyPresent, _) =>
      { restored with duplicates := restored.duplicates ++ [record.root] }
    | (.added, tree) =>
      { restored with
        tree := record.derivations.foldl (fun tree derivation => tree.record root derivation)
          tree }

def restoreRoots (records : List RootRecord) : RestoredRoots :=
  records.foldl restoreRoot ⟨.leaf, [], []⟩

def restore (p : Placeholders) (snapshot : Snapshot) : Engine × RestoreReport :=
  let (registry, skipped) := restoreSchemes p snapshot.schemes
  let roots := restoreRoots snapshot.roots
  ({ tree := roots.tree, registry, placeholders := p },
    { skippedSchemes := skipped
      invalidRoots := roots.invalid
      duplicateRoots := roots.duplicates })

end Engine

end Triliteral
