import Triliteral.Text.Blank

/-!
Files of roots: one candidate on a line, blanks around it and blank lines ignored.
-/

namespace Triliteral.RootsFile

def splitLines : List Char → List (List Char)
  | [] => [[]]
  | c :: rest =>
    match splitLines rest with
    | [] => [[c]]
    | line :: lines => if c = '\n' then [] :: line :: lines else (c :: line) :: lines

/-- The candidates of a file in the order of their lines. A carriage return at the end of a
line is a blank like any other; one inside a line belongs to the candidate. -/
def candidates (text : String) : List String :=
  ((splitLines text.toList).map Text.trimChars |>.filter fun line => !line.isEmpty).map
    String.ofList

end Triliteral.RootsFile
