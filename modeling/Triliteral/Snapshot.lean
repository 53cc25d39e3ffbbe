import Triliteral.Derivation
import Triliteral.Scheme.Category

/-!
Snapshots: the state of an engine as plain records, in which nothing has been checked yet.
-/

namespace Triliteral

/-- A scheme as it is stored. The rule of a scheme that is not dynamic is not part of it. -/
structure SchemeRecord where
  name : String
  pattern : Option String
  dynamic : Bool
  category : Category
  usage : UInt64
  deriving DecidableEq

/-- A root as it is stored, under whatever text the record carries. -/
structure RootRecord where
  root : String
  derivations : List Derivation
  deriving DecidableEq

structure Snapshot where
  schemes : List SchemeRecord
  roots : List RootRecord
  deriving DecidableEq

end Triliteral
