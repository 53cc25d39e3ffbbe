import Triliteral.Files.Basic

/-!
A disk held in memory: files in directories, reached by absolute paths or by paths relative to
a working directory. Dots in a path are followed as a file system follows them, so a directory
must be there before a path can lead through it.
-/

namespace Triliteral

/-- A place on a disk: the names on the way to it, the innermost first. -/
abbrev Place := List String

structure Disk where
  /-- The content at each place; the first entry for a place counts. -/
  files : List (Place × String)
  /-- The places of the directories other than the root. -/
  directories : List Place
  current : Place
  deriving DecidableEq

namespace Disk

def isDirectory (disk : Disk) (place : Place) : Bool :=
  place.isEmpty || disk.directories.contains place

def isFile (disk : Disk) (place : Place) : Bool :=
  (disk.files.lookup place).isSome

def isName (name : String) : Bool :=
  name.utf8ByteSize ≤ 255 && !name.toList.contains '\x00'

/-- The number of bytes from which a path is too long to lead anywhere. -/
def pathLimit : Nat := 4096

def isPath (path : String) : Bool :=
  !path.isEmpty && path.utf8ByteSize < pathLimit

def splitPath : List Char → List (List Char)
  | [] => [[]]
  | c :: rest =>
    match splitPath rest with
    | [] => [[c]]
    | part :: parts => if c = '/' then [] :: part :: parts else (c :: part) :: parts

def parts (path : String) : List String :=
  (splitPath path.toList).map String.ofList

def absolutePath (place : Place) : String :=
  "/" ++ "/".intercalate place.reverse

def origin (disk : Disk) (path : String) : Place :=
  if path.toList.head? = some '/' then [] else disk.current

/-- Goes on from a place by one part of a path. The place must be a directory. -/
def step (disk : Disk) (place : Place) (part : String) : Option Place :=
  if disk.isDirectory place then
    if part = "" ∨ part = "." then some place
    else if part = ".." then some place.tail
    else if isName part then some (part :: place)
    else none
  else none

def locate (disk : Disk) (path : String) : Option Place :=
  if isPath path then (parts path).foldlM disk.step (disk.origin path) else none

def read? (disk : Disk) (path : String) : Option String :=
  (disk.locate path).bind fun place => disk.files.lookup place

def contains (disk : Disk) (path : String) : Bool :=
  match disk.locate path with
  | some place => disk.isDirectory place || disk.isFile place
  | none => false

def put (disk : Disk) (place : Place) (content : String) : Disk :=
  { disk with files := (place, content) :: disk.files.filter fun entry => entry.1 != place }

def write? (disk : Disk) (path content : String) : Option Disk := do
  let place ← disk.locate path
  if disk.isDirectory place then none else return disk.put place content

/-- Goes on from a place by the parts of a path, making the directories that are missing. The
result tells whether the end was reached, and keeps what was made on the way. -/
def makeAlong : Disk → Place → List String → Bool × Disk
  | disk, place, [] => (!disk.isFile place, disk)
  | disk, place, part :: rest =>
    match disk.step place part with
    | none => (false, disk)
    | some next =>
      if disk.isFile next then (false, disk)
      else
        makeAlong
          (if disk.isDirectory next then disk
            else { disk with directories := next :: disk.directories })
          next rest

def makeDirectories (disk : Disk) (path : String) : Bool × Disk :=
  if isPath path then disk.makeAlong (disk.origin path) (parts path)
  else (path.isEmpty, disk)

abbrev Run := StateM Disk

instance : Files Run where
  exists? path := do return (← get).contains path
  read? path := do return (← get).read? path
  write path content := do
    match (← get).write? path content with
    | some disk => set disk; return true
    | none => return false
  createDirectories path := do
    let (made, disk) := (← get).makeDirectories path
    set disk
    return made
  currentDirectory := do return absolutePath (← get).current

end Disk

end Triliteral
