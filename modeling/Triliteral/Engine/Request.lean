import Triliteral.Engine.Restore

/-!
Requests to an engine and the answers to them, as values, so that whole runs of an engine
can be described by lists.
-/

namespace Triliteral

inductive Request where
  | addRoot (text : String)
  | loadRoots (texts : List String)
  | addScheme (name : String) (category : Category)
  | addExplicitScheme (name : String) (category : Category) (word : Root → String)
  | modifyScheme (name pattern : String)
  | removeScheme (name : String)
  | generate (root scheme : String)
  | validate (root word : String)
  | analyze (word : String)
  | listRoots
  | derivations (root : String)
  | listSchemes
  | schemesOf (category : Category)
  | popular (limit : Nat)
  | snapshot
  /-- Replaces the engine by the one restored from its own snapshot. -/
  | reload (placeholders : Placeholders)

inductive Response where
  | done
  | refused (fault : Fault)
  | loaded (report : LoadReport)
  | word (text : String)
  /-- The schemes that make the word; none when the word is not valid. -/
  | verdict (schemes : List String)
  | analysis (found : Option Analysis)
  | roots (texts : List String)
  | derivations (history : List Derivation)
  | schemes (summaries : List SchemeSummary)
  | snapshot (snapshot : Snapshot)
  | reloaded (report : RestoreReport)
  deriving DecidableEq

namespace Engine

/-- The engine after an operation that may be refused; a refusal changes nothing. -/
def settle (engine : Engine) (answer : α → Response) :
    Except Fault (α × Engine) → Response × Engine
  | .ok (value, next) => (answer value, next)
  | .error fault => (.refused fault, engine)

def settleDone (engine : Engine) (outcome : Except Fault Engine) : Response × Engine :=
  engine.settle (fun () => .done) (outcome.map ((), ·))

def settleRead (engine : Engine) (answer : α → Response) (outcome : Except Fault α) :
    Response × Engine :=
  engine.settle answer (outcome.map (·, engine))

def perform (now : Occasion) (engine : Engine) : Request → Response × Engine
  | .addRoot text => engine.settleDone (engine.addRoot text)
  | .loadRoots texts =>
    let (report, next) := engine.loadRoots texts
    (.loaded report, next)
  | .addScheme name category => engine.settleDone (engine.addScheme name category)
  | .addExplicitScheme name category word =>
    engine.settleDone (engine.addExplicitScheme name category word)
  | .modifyScheme name pattern => engine.settleDone (engine.modifyScheme name pattern)
  | .removeScheme name => engine.settleDone (engine.removeScheme name)
  | .generate root scheme => engine.settle .word (engine.generate now root scheme)
  | .validate root word => engine.settle .verdict (engine.validate now root word)
  | .analyze word => (.analysis (engine.analyze word), engine)
  | .listRoots => (.roots engine.listRoots, engine)
  | .derivations root => engine.settleRead .derivations (engine.derivations root)
  | .listSchemes => (.schemes engine.registry.summaries, engine)
  | .schemesOf category => (.schemes (engine.registry.summariesOf category), engine)
  | .popular limit => (.schemes (engine.registry.mostUsed limit), engine)
  | .snapshot => (.snapshot engine.snapshot, engine)
  | .reload placeholders =>
    let (next, report) := restore placeholders engine.snapshot
    (.reloaded report, next)

def run (engine : Engine) : List (Occasion × Request) → List Response × Engine
  | [] => ([], engine)
  | (now, request) :: rest =>
    let (response, next) := engine.perform now request
    let (responses, last) := next.run rest
    (response :: responses, last)

end Engine

end Triliteral
