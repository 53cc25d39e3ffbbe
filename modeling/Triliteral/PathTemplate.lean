import Triliteral.Environment
import Triliteral.Text.Alphanumeric

/-!
Path templates: paths in which variables may stand, as `$NAME`, `${NAME}` or
`${NAME:-fallback}`, and at whose beginning a tilde stands for the user's directory. A text is
first read into pieces; then all variables are replaced at once, so that nothing that was put
in is read again.
-/

namespace Triliteral

inductive PathPiece where
  | literal (c : Char)
  | reference (name : String) (fallback : Option String)
  deriving DecidableEq, Repr

namespace PathTemplate

def isNameChar (c : Char) : Bool :=
  Text.isAlphanumeric c || c == '_'

def splitFallback : List Char → Option (List Char × List Char)
  | [] => none
  | ':' :: '-' :: rest => some ([], rest)
  | c :: rest => (splitFallback rest).map fun (name, fallback) => (c :: name, fallback)

/-- What stands between braces. A fallback needs a name before it. -/
def braced (inside : List Char) : PathPiece :=
  match splitFallback inside with
  | some (c :: name, fallback) =>
    .reference (String.ofList (c :: name)) (some (String.ofList fallback))
  | _ => .reference (String.ofList inside) none

theorem length_dropWhile_le (p : Char → Bool) (cs : List Char) :
    (cs.dropWhile p).length ≤ cs.length :=
  (List.dropWhile_sublist p).length_le

/-- The pieces of a template. Two dollar signs stand for one. A dollar sign that begins
nothing is itself, and so is a brace after one that is never closed. -/
def pieces : List Char → List PathPiece
  | [] => []
  | '$' :: '$' :: rest => .literal '$' :: pieces rest
  | '$' :: '{' :: rest =>
    if rest.contains '}' then
      braced (rest.takeWhile (· != '}')) :: pieces ((rest.dropWhile (· != '}')).drop 1)
    else .literal '$' :: .literal '{' :: pieces rest
  | '$' :: rest =>
    match rest.takeWhile isNameChar with
    | [] => .literal '$' :: pieces rest
    | name => .reference (String.ofList name) none :: pieces (rest.dropWhile isNameChar)
  | c :: rest => .literal c :: pieces rest
termination_by cs => cs.length
decreasing_by
  · exact Nat.lt_succ_of_lt (Nat.lt_succ_self _)
  · have := (List.drop_sublist 1 (rest.dropWhile (· != '}'))).length_le
    exact Nat.lt_succ_of_lt (Nat.lt_succ_of_le (Nat.le_trans this (length_dropWhile_le _ _)))
  · exact Nat.lt_succ_of_lt (Nat.lt_succ_self _)
  · exact Nat.lt_succ_self _
  · exact Nat.lt_succ_of_le (length_dropWhile_le _ _)
  · exact Nat.lt_succ_self _

/-- The text that takes the place of a piece; none for a variable that is unset and has no
fallback. A variable that is set to the empty text counts as set. -/
def PathPiece.value? (env : Environment) : PathPiece → Option (List Char)
  | .literal c => some [c]
  | .reference name fallback => ((env.get? name).or fallback).map String.toList

def substitute? (env : Environment) : List PathPiece → Option (List Char)
  | [] => some []
  | piece :: rest => do
    let value ← PathPiece.value? env piece
    let values ← substitute? env rest
    return value ++ values

/-- Replaces a tilde that stands alone or before a slash. -/
def expandTilde (env : Environment) : List Char → List Char
  | '~' :: rest =>
    if rest = [] ∨ rest.head? = some '/' then
      match env.home? with
      | some home => home.toList ++ rest
      | none => '~' :: rest
    else '~' :: rest
  | cs => cs

/-- The path that a template stands for. If one variable cannot be replaced, nothing is. A
tilde counts only where the template itself begins with one. -/
def expand (env : Environment) (template : String) : String :=
  match substitute? env (pieces template.toList) with
  | none => template
  | some cs =>
    if template.toList.head? = some '~' then String.ofList (expandTilde env cs)
    else String.ofList cs

end PathTemplate

end Triliteral
