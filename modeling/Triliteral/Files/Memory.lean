import Triliteral.Files.Basic

/-!
Files held in memory under the exact texts of their paths. Chosen paths fail on every access.
-/

namespace Triliteral

structure MemoryFiles where
  /-- The content under each path; the first entry for a path counts. -/
  contents : List (String × String)
  /-- The directories that were made, each once. -/
  directories : List String
  failing : List String
  deriving DecidableEq

namespace MemoryFiles

def read? (files : MemoryFiles) (path : String) : Option String :=
  if files.failing.contains path then none else files.contents.lookup path

def put (files : MemoryFiles) (path content : String) : MemoryFiles :=
  { files with
    contents := (path, content) :: files.contents.filter fun entry => entry.1 != path }

def makeDirectory (files : MemoryFiles) (path : String) : MemoryFiles :=
  { files with
    directories :=
      if files.directories.contains path then files.directories
      else path :: files.directories }

abbrev Run := StateM MemoryFiles

instance : Files Run where
  exists? path := do return ((← get).contents.lookup path).isSome
  read? path := do return (← get).read? path
  write path content := do
    if (← get).failing.contains path then return false
    modify fun files => files.put path content
    return true
  createDirectories path := do
    if (← get).failing.contains path then return false
    modify fun files => files.makeDirectory path
    return true
  currentDirectory := return ""

end MemoryFiles

end Triliteral
