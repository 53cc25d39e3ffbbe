import Triliteral.Occasion
import Triliteral.RootTree.Basic
import Triliteral.Scheme.Catalog
import Triliteral.Scheme.Registry

/-!
The engine: a tree of roots, a registry of schemes and the placeholders under which patterns
are compiled. An operation that fails returns a fault and no engine, so the state it was
given stays the current one.
-/

namespace Triliteral

structure Engine where
  tree : RootTree
  registry : Registry
  placeholders : Placeholders

structure LoadReport where
  added : Nat
  duplicates : Nat
  invalid : Nat
  deriving DecidableEq, Repr

/-- The least root that some scheme turns into a word, with all the schemes that do. -/
structure Analysis where
  root : Root
  schemes : List String
  deriving DecidableEq, Repr

namespace Engine

def empty (p : Placeholders) : Engine where
  tree := .leaf
  registry := .empty
  placeholders := p

def withCatalog (p : Placeholders) : Engine where
  tree := .leaf
  registry := ⟨Catalog.schemes.foldr Registry.insertByName []⟩
  placeholders := p

/-! ### Roots -/

def addRoot (engine : Engine) (text : String) : Except Fault Engine :=
  match Root.ofText? text with
  | none => .error (.invalidRoot text)
  | some root =>
    match engine.tree.insert root with
    | (.added, tree) => .ok { engine with tree }
    | (.alreadyPresent, _) => .error (.duplicateRoot text)

def loadRoot : LoadReport × Engine → String → LoadReport × Engine
  | (report, engine), text =>
    match engine.addRoot text with
    | .ok engine => ({ report with added := report.added + 1 }, engine)
    | .error (.duplicateRoot _) =>
      ({ report with duplicates := report.duplicates + 1 }, engine)
    | .error _ => ({ report with invalid := report.invalid + 1 }, engine)

def loadRoots (engine : Engine) (texts : List String) : LoadReport × Engine :=
  texts.foldl loadRoot (⟨0, 0, 0⟩, engine)

def findRoot (engine : Engine) (text : String) : Except Fault RootTree.Node :=
  match engine.tree.findText? text with
  | some node => .ok node
  | none => .error (.rootNotFound text)

def containsRoot (engine : Engine) (text : String) : Bool :=
  engine.tree.containsText text

def listRoots (engine : Engine) : List String :=
  engine.tree.roots.map Root.text

def rootCount (engine : Engine) : Nat :=
  engine.tree.size

def derivations (engine : Engine) (text : String) : Except Fault (List Derivation) :=
  (engine.findRoot text).map fun node => node.entry.derivations

/-! ### Schemes -/

def addScheme (engine : Engine) (name : String) (category : Category) :
    Except Fault Engine := do
  let scheme ← Scheme.dynamic engine.placeholders name category
  let registry ← engine.registry.add scheme
  return { engine with registry }

def addExplicitScheme (engine : Engine) (name : String) (category : Category)
    (word : Root → String) : Except Fault Engine := do
  let scheme ← Scheme.explicit name category word
  let registry ← engine.registry.add scheme
  return { engine with registry }

def modifyScheme (engine : Engine) (name pattern : String) : Except Fault Engine := do
  let registry ← engine.registry.modify engine.placeholders name pattern
  return { engine with registry }

def removeScheme (engine : Engine) (name : String) : Except Fault Engine := do
  let (_, registry) ← engine.registry.remove name
  return { engine with registry }

/-! ### Words -/

/-- Makes the word of a root by a scheme and records it. A word that is new on the root
counts as one use of the scheme. -/
def generate (now : Occasion) (engine : Engine) (rootText schemeName : String) :
    Except Fault (String × Engine) := do
  let node ← engine.findRoot rootText
  let scheme ← engine.registry.get schemeName
  let root := node.entry.root
  let word := scheme.word root
  if node.entry.derivations.any fun earlier => earlier.word == word then
    return (word, engine)
  else
    return (word,
      { engine with
        tree := engine.tree.record root ⟨word, schemeName, now.time⟩
        registry := engine.registry.countUse schemeName })

/-- The names of the schemes that make this word of a root. If there are any, the word is
recorded on the root under one of them; no use is counted. -/
def validate (now : Occasion) (engine : Engine) (rootText word : String) :
    Except Fault (List String × Engine) := do
  let node ← engine.findRoot rootText
  let root := node.entry.root
  match engine.registry.producers root word with
  | [] => return ([], engine)
  | names =>
    return (names,
      { engine with tree := engine.tree.record root ⟨word, now.choose names, now.time⟩ })

/-- The least root of which some scheme makes this word. Nothing is recorded. -/
def analyze (engine : Engine) (word : String) : Option Analysis :=
  engine.tree.roots.findSome? fun root =>
    match engine.registry.producers root word with
    | [] => none
    | names => some ⟨root, names⟩

def searchSpace (engine : Engine) : Nat :=
  engine.tree.size * engine.registry.size

end Engine

end Triliteral
