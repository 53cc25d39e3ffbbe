import Triliteral.Engine.Request
import Triliteral.Storage

/-!
Programs that hold an engine while they run. Opening puts the engine of the state file in the place
of the one that is held; persisting writes the one that is held to the state file.
-/

namespace Triliteral.Storage

variable {m : Type → Type} [Monad m]

/-- Programs over files that hold an engine and can fail. -/
abbrev Holding (m : Type → Type) := ExceptT Failure (StateT Engine m)

/-- Runs a program that has nothing to do with the engine that is held. -/
def aside {α : Type} (program : ExceptT Failure m α) : Holding m α :=
  ExceptT.mk (StateT.lift program.run)

def answerHeld (now : Occasion) (request : Request) : Holding m Unit := do
  match (← get).perform now request with
  | (.refused fault, _) => throw (.refused fault)
  | (_, next) => set next

variable [Files m]

def reopen (settings : Settings) (p : Placeholders) : Holding m Unit := do
  set (← aside (openEngine settings p))

def persistHeld (settings : Settings) : Holding m Unit := do
  aside (persist settings (← get))

def loadHeld (path : String) : Holding m Unit := do
  set (← aside (loadRoots path (← get))).2

/-- What a session does with its engine: it has a request answered, or turns to the files. -/
inductive Deed where
  | answer (now : Occasion) (request : Request)
  | loadRoots (path : String)
  | persist
  | reopen

def Deed.program (settings : Settings) (p : Placeholders) : Deed → Holding m Unit
  | .answer now request => answerHeld now request
  | .loadRoots path => loadHeld path
  | .persist => persistHeld settings
  | .reopen => Storage.reopen settings p

end Triliteral.Storage
