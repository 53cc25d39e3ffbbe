import Triliteral.Scheme.Basic

/-!
The registry of schemes: a list kept in strictly ascending order of names, so that a name
stands for one scheme and every listing has one order.
-/

namespace Triliteral

structure Registry where
  schemes : List Scheme

namespace Registry

def empty : Registry := ⟨[]⟩

def size (registry : Registry) : Nat :=
  registry.schemes.length

def find? (registry : Registry) (name : String) : Option Scheme :=
  registry.schemes.find? fun scheme => scheme.name == name

def get (registry : Registry) (name : String) : Except Fault Scheme :=
  match registry.find? name with
  | some scheme => .ok scheme
  | none => .error (.schemeNotFound name)

def insertByName (scheme : Scheme) : List Scheme → List Scheme
  | [] => [scheme]
  | head :: rest =>
    if head.name < scheme.name then head :: insertByName scheme rest
    else scheme :: head :: rest

def add (registry : Registry) (scheme : Scheme) : Except Fault Registry :=
  match registry.find? scheme.name with
  | some _ => .error (.duplicateScheme scheme.name)
  | none => .ok ⟨insertByName scheme registry.schemes⟩

def update (registry : Registry) (name : String) (change : Scheme → Scheme) : Registry :=
  ⟨registry.schemes.map fun scheme => if scheme.name == name then change scheme else scheme⟩

/-- Gives the scheme with this name a rule compiled from a pattern; its name, category and
usage stay. The name is looked up before the pattern is compiled. -/
def modify (registry : Registry) (p : Placeholders) (name pattern : String) :
    Except Fault Registry := do
  let _ ← registry.get name
  let pattern ← Pattern.compile p pattern
  return registry.update name fun scheme => { scheme with rule := .compiled pattern }

def remove (registry : Registry) (name : String) : Except Fault (Scheme × Registry) := do
  let scheme ← registry.get name
  return (scheme, ⟨registry.schemes.filter fun other => other.name != name⟩)

/-- Counts one use of the scheme with this name. A counter that is full begins again at zero. -/
def countUse (registry : Registry) (name : String) : Registry :=
  registry.update name fun scheme => { scheme with usage := scheme.usage + 1 }

def summaries (registry : Registry) : List SchemeSummary :=
  registry.schemes.map Scheme.summary

def summariesOf (registry : Registry) (category : Category) : List SchemeSummary :=
  (registry.schemes.filter fun scheme => scheme.category = category).map Scheme.summary

/-- Whether the first scheme ranks before the second: it was used more often, or as often
and its name does not come later. -/
def ranksBefore (a b : Scheme) : Bool :=
  b.usage < a.usage || (a.usage == b.usage && !decide (b.name < a.name))

def mostUsed (registry : Registry) (limit : Nat) : List SchemeSummary :=
  ((registry.schemes.mergeSort ranksBefore).take limit).map Scheme.summary

def producers (registry : Registry) (root : Root) (word : String) : List String :=
  (registry.schemes.filter fun scheme => scheme.word root == word).map Scheme.name

end Registry

end Triliteral
