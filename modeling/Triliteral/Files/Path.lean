/-!
Paths of files, as texts whose parts are separated by slashes.
-/

namespace Triliteral.Path

def isAbsolute (path : String) : Bool :=
  path.toList.head? == some '/'

/-- A path inside a directory. No slash is doubled, and nothing is put before a path that is
itself absolute. -/
def join (directory file : String) : String :=
  if isAbsolute file ∨ directory.isEmpty then file
  else if directory.toList.getLast? = some '/' then directory ++ file
  else directory ++ "/" ++ file

/-- Parts a path into what it starts from and the rest: a slash, a lone dot before a slash or
at the end, or nothing. -/
def splitStart : List Char → List Char × List Char
  | '/' :: rest => (['/'], rest)
  | ['.'] => (['.'], [])
  | '.' :: '/' :: rest => (['.'], '/' :: rest)
  | cs => ([], cs)

/-- Drops the parts at the end of a path that name nothing: empty ones and single dots. The
path is given backwards. -/
def dropIdle : List Char → List Char
  | '/' :: rest => dropIdle rest
  | ['.'] => []
  | '.' :: '/' :: rest => dropIdle rest
  | cs => cs

/-- The directory that holds what a path names. The root and the empty path have none; a
single name lies in the directory with the empty path. -/
def parent? (path : String) : Option String :=
  let (start, rest) := splitStart path.toList
  match dropIdle rest.reverse with
  | [] => if start = ['.'] then some "" else none
  | backwards =>
    let directory := dropIdle ((backwards.dropWhile (· != '/')).drop 1)
    some (String.ofList (start ++ directory.reverse))

/-- Splits a path before its last part, which is empty where a path ends in two dots or
names the root. Idle parts at the end are dropped. -/
def splitName (path : String) : List Char × List Char :=
  let backwards := dropIdle path.toList.reverse
  let name := (backwards.takeWhile (· != '/')).reverse
  let before := (backwards.dropWhile (· != '/')).reverse
  if name = ['.', '.'] then (before ++ name, []) else (before, name)

/-- What follows the last dot of a file's name, unless the dot begins the name. -/
def extension? (path : String) : Option String :=
  let backwards := (splitName path).2.reverse
  match backwards.dropWhile (· != '.') with
  | '.' :: _ :: _ => some (String.ofList (backwards.takeWhile (· != '.')).reverse)
  | _ => none

def addExtension (path extension : String) : String :=
  let (before, name) := splitName path
  if name.isEmpty then path else String.ofList (before ++ name) ++ "." ++ extension

end Triliteral.Path
