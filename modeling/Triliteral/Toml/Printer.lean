import Triliteral.Text.Decimal
import Triliteral.Toml.Quote
import Triliteral.Toml.Table

/-!
Printing TOML documents: one pair on a line, and a blank line before every header but one at
the very beginning.
-/

namespace Triliteral.Toml

namespace Value

/-- The written form of the values that occur in printed documents: strings, integers that are
not negative, truth values and empty arrays. -/
def chars : Value → List Char
  | .string text => Quote.chars text.toList
  | .integer n => Text.Decimal.digits n.toNat
  | .boolean b => if b then "true".toList else "false".toList
  | _ => ['[', ']']

end Value

def pathChars (path : KeyPath) (key : String) : List Char :=
  path.flatMap (fun part => part.toList ++ ['.']) ++ key.toList

def Pair.line (pair : Pair) : List Char :=
  pathChars pair.path pair.key ++ ' ' :: '=' :: ' ' :: pair.value.chars ++ ['\n']

def Header.line : Header → List Char
  | .table path key => '[' :: pathChars path key ++ [']', '\n']
  | .element path key => '[' :: '[' :: pathChars path key ++ [']', ']', '\n']

def Block.chars (block : Block) : List Char :=
  block.header.line ++ block.pairs.flatMap Pair.line

def blocksChars : List Block → List Char
  | [] => []
  | [block] => block.chars
  | block :: rest => block.chars ++ '\n' :: blocksChars rest

def Document.chars (document : Document) : List Char :=
  document.opening.flatMap Pair.line ++
    (if document.opening.isEmpty || document.blocks.isEmpty then [] else ['\n']) ++
    blocksChars document.blocks

def Document.text (document : Document) : String :=
  String.ofList document.chars

end Triliteral.Toml
