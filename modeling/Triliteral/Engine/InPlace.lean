import Triliteral.Engine.Request

/-!
The requests as programs over an engine that they change step by step. A step once made stays
made: a program that fails later leaves the engine as it is by then, and not as it was at
first. The programs check what they rely on again wherever they look something up again, and
read the letters of a stored root off its text.
-/

namespace Triliteral

/-- A program that changes an engine and may fail on the way. -/
abbrev InPlace := ExceptT Fault (StateM Engine)

namespace Scheme

def wordOfText (scheme : Scheme) (rootText : String) : Except Fault String :=
  match Root.ofText? rootText with
  | some root => .ok (scheme.word root)
  | none => .error (.generationFailure rootText scheme.name)

/-- Whether a scheme makes this word of a text. A scheme that fails on the text does not. -/
def makes (scheme : Scheme) (rootText word : String) : Bool :=
  match scheme.wordOfText rootText with
  | .ok made => made == word
  | .error _ => false

end Scheme

namespace Registry

def producersOfText (registry : Registry) (rootText word : String) : List String :=
  (registry.schemes.filter fun scheme => scheme.makes rootText word).map Scheme.name

end Registry

namespace InPlace

/-- Runs a program: its outcome and the engine that it leaves, also when it fails. -/
def attempt (program : InPlace α) (engine : Engine) : Except Fault α × Engine :=
  program.run.run engine

def look (check : Engine → Except Fault α) : InPlace α := do
  MonadExcept.ofExcept (check (← get))

/-! ### Roots -/

def insertRoot (root : Root) : InPlace RootTree.Insertion :=
  modifyGet fun engine =>
    ((engine.tree.insert root).1, { engine with tree := (engine.tree.insert root).2 })

def addRoot (text : String) : InPlace Unit :=
  match Root.ofText? text with
  | none => throw (.invalidRoot text)
  | some root => do
    match ← insertRoot root with
    | .added => return
    | .alreadyPresent => throw (.duplicateRoot text)

def loadRoot (report : LoadReport) (text : String) : InPlace LoadReport :=
  tryCatch
    (do
      addRoot text
      return { report with added := report.added + 1 })
    fun
    | .duplicateRoot _ => return { report with duplicates := report.duplicates + 1 }
    | _ => return { report with invalid := report.invalid + 1 }

def loadRoots (texts : List String) : InPlace LoadReport :=
  texts.foldlM loadRoot ⟨0, 0, 0⟩

/-! ### Schemes -/

def setRegistry (registry : Registry) : InPlace Unit :=
  modify fun engine => { engine with registry }

def register (scheme : Scheme) : InPlace Unit := do
  setRegistry (← look fun engine => engine.registry.add scheme)

def addScheme (name : String) (category : Category) : InPlace Unit := do
  register (← look fun engine => Scheme.dynamic engine.placeholders name category)

def addExplicitScheme (name : String) (category : Category) (word : Root → String) :
    InPlace Unit := do
  register (← look fun _ => Scheme.explicit name category word)

def changeScheme (name : String) (change : Scheme → Scheme) : InPlace Unit :=
  modify fun engine => { engine with registry := engine.registry.update name change }

/-- Looks the scheme up and holds on to it while the pattern is compiled. -/
def modifyScheme (name pattern : String) : InPlace Unit := do
  let _ ← look fun engine => engine.registry.get name
  let pattern ← look fun engine => Pattern.compile engine.placeholders pattern
  changeScheme name fun scheme => { scheme with rule := .compiled pattern }

/-- Takes the scheme with this name out first and then asks whether there was one. -/
def removeScheme (name : String) : InPlace Unit := do
  let engine ← get
  setRegistry ⟨engine.registry.schemes.filter fun scheme => scheme.name != name⟩
  match engine.registry.find? name with
  | some _ => return
  | none => throw (.schemeNotFound name)

/-! ### Words -/

def record (rootText : String) (derivation : Derivation) : InPlace Bool := do
  let node ← look fun engine => engine.findRoot rootText
  if node.entry.derivations.any fun earlier => earlier.word == derivation.word then
    return false
  else
    modify fun engine =>
      { engine with tree := engine.tree.record node.entry.root derivation }
    return true

/-- Counts one use of the scheme with this name, which is looked up again. -/
def countUse (name : String) : InPlace Unit := do
  let _ ← look fun engine => engine.registry.get name
  changeScheme name fun scheme => { scheme with usage := scheme.usage + 1 }

def generate (now : Occasion) (rootText schemeName : String) : InPlace String := do
  let node ← look fun engine => engine.findRoot rootText
  let scheme ← look fun engine => engine.registry.get schemeName
  let word ← look fun _ => scheme.wordOfText node.entry.root.text
  if ← record rootText ⟨word, schemeName, now.time⟩ then
    countUse schemeName
  return word

def validate (now : Occasion) (rootText word : String) : InPlace (List String) := do
  let node ← look fun engine => engine.findRoot rootText
  match (← get).registry.producersOfText node.entry.root.text word with
  | [] => return []
  | names => do
    let _ ← record rootText ⟨word, now.choose names, now.time⟩
    return names

/-! ### Requests -/

def reload (p : Placeholders) : InPlace RestoreReport :=
  modifyGet fun engine =>
    ((Engine.restore p engine.snapshot).2, (Engine.restore p engine.snapshot).1)

def perform (now : Occasion) : Request → InPlace Response
  | .addRoot text => do addRoot text; return .done
  | .loadRoots texts => return .loaded (← loadRoots texts)
  | .addScheme name category => do addScheme name category; return .done
  | .addExplicitScheme name category word => do
    addExplicitScheme name category word
    return .done
  | .modifyScheme name pattern => do modifyScheme name pattern; return .done
  | .removeScheme name => do removeScheme name; return .done
  | .generate root scheme => return .word (← generate now root scheme)
  | .validate root word => return .verdict (← validate now root word)
  | .analyze word => return .analysis ((← get).analyze word)
  | .listRoots => return .roots (← get).listRoots
  | .derivations root => return .derivations (← look fun engine => engine.derivations root)
  | .listSchemes => return .schemes (← get).registry.summaries
  | .schemesOf category => return .schemes ((← get).registry.summariesOf category)
  | .popular limit => return .schemes ((← get).registry.mostUsed limit)
  | .snapshot => return .snapshot (← get).snapshot
  | .reload placeholders => return .reloaded (← reload placeholders)

def run (engine : Engine) :
    List (Occasion × Request) → List (Except Fault Response) × Engine
  | [] => ([], engine)
  | (now, request) :: rest =>
    let (outcome, next) := (perform now request).attempt engine
    let (outcomes, last) := run next rest
    (outcome :: outcomes, last)

end InPlace

end Triliteral
