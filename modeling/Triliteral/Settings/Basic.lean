import Triliteral.Failure
import Triliteral.Files.Path
import Triliteral.Placeholders
import Triliteral.Toml.Printer

/-!
Settings of the program.
-/

namespace Triliteral

structure Settings where
  dataDirectory : String
  stateFile : Option String
  rootsFile : Option String
  /-- The text of the placeholders, not yet trimmed or checked. -/
  placeholders : String
  /-- Whether words are printed backwards, for displays that only write from left to right. -/
  rightToLeft : Bool
  /-- How many pairs of a root and a scheme an analysis may try. -/
  maxSearchSpace : Nat
  deriving DecidableEq, Repr

namespace Settings

def defaultMaxSearchSpace : Nat := 1000000

def statePath (settings : Settings) : String :=
  settings.stateFile.getD (Path.join settings.dataDirectory "state.toml")

def parsedPlaceholders (settings : Settings) : Except Failure Placeholders :=
  (Placeholders.ofText settings.placeholders).mapError fun fault =>
    .config (.placeholders fault)

open Toml in
def document (settings : Settings) : Document where
  opening :=
    [⟨[], "data_dir", .string settings.dataDirectory⟩] ++
      (settings.stateFile.map fun path => ⟨[], "state_file", .string path⟩).toList ++
      (settings.rootsFile.map fun path => ⟨[], "roots_file", .string path⟩).toList ++
      [⟨[], "placeholders", .string settings.placeholders⟩,
        ⟨[], "rtl", .boolean settings.rightToLeft⟩,
        ⟨[], "max_search_space", .integer settings.maxSearchSpace⟩]
  blocks := []

def toToml (settings : Settings) : Except Failure String :=
  if settings.maxSearchSpace ≤ Toml.maxInteger then .ok settings.document.text
  else .error (.config (.unwritableValue "max_search_space"))

end Settings

end Triliteral
