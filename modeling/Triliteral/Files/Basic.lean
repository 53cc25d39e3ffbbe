import Triliteral.Files.Path

/-!
The file operations that the program needs, so that the same program can run on a real file
system and on one held in memory.
-/

namespace Triliteral

/-- A monad in which files can be reached by their paths. Operations other than the question
whether a file exists can fail, and tell so. -/
class Files (m : Type → Type) where
  exists? : String → m Bool
  read? : String → m (Option String)
  write : String → String → m Bool
  createDirectories : String → m Bool
  /-- The directory in which paths begin that are not absolute; the empty path stands for it
  where it has no other name. -/
  currentDirectory : m String

namespace Files

variable {m : Type → Type} [Monad m] [Files m]

/-- Makes the directory that holds a file, unless it is the current one or there is none. -/
def ensureParent (path : String) : m Bool :=
  match Path.parent? path with
  | none => pure true
  | some directory => if directory.isEmpty then pure true else createDirectories directory

def absolute (path : String) : m String := do
  return Path.join (← currentDirectory) path

end Files

end Triliteral
