import Triliteral.Toml.Scalar
import Triliteral.Toml.Table
import Triliteral.Toml.Unquote

/-!
Reading TOML documents. A document is read line by line into statements, which are then
gathered into blocks.
-/

namespace Triliteral.Toml.Reader

def isSpace (c : Char) : Bool :=
  c == ' ' || c == '\t'

def skipSpace (cs : List Char) : List Char :=
  cs.dropWhile isSpace

def skipComment : List Char → List Char
  | '#' :: rest => rest.dropWhile Unquote.isPlain
  | cs => cs

def lineEnd : List Char → Option (List Char)
  | [] => some []
  | '\n' :: rest => some rest
  | '\r' :: '\n' :: rest => some rest
  | _ => none

def trailing (cs : List Char) : Option (List Char) :=
  lineEnd (skipComment (skipSpace cs))

def skipFiller (inComment : Bool) : List Char → Option (List Char)
  | [] => some []
  | c :: rest =>
    if c = '\n' then skipFiller false rest
    else if c = '\r' then
      match rest with
      | '\n' :: _ => skipFiller false rest
      | _ => none
    else if inComment then
      if Unquote.isPlain c then skipFiller true rest else none
    else if isSpace c then skipFiller false rest
    else if c = '#' then skipFiller true rest
    else some (c :: rest)

def isBare (c : Char) : Bool :=
  c.isAlphanum || c == '_' || c == '-'

def simpleKey (cs : List Char) : Option (String × List Char) :=
  match cs.takeWhile isBare with
  | [] => Unquote.readLine cs
  | bare => some (String.ofList bare, cs.drop bare.length)

/-- Reads the parts of a dotted key after its first one, at most as many as the limit. -/
def moreKeys : Nat → List Char → Option (List String × List Char)
  | 0, _ => none
  | limit + 1, cs =>
    match skipSpace cs with
    | '.' :: rest => do
      let (key, rest) ← simpleKey (skipSpace rest)
      let (keys, rest) ← moreKeys limit rest
      return (key :: keys, rest)
    | rest => some ([], rest)

/-- The number of parts of a key, and of levels of brackets, from which a document is refused. -/
def nestingLimit : Nat := 80

def dottedKey (cs : List Char) : Option (KeyPath × String × List Char) := do
  let (first, cs) ← simpleKey (skipSpace cs)
  let (more, cs) ← moreKeys (nestingLimit - 1) cs
  let parts := first :: more
  return (parts.dropLast, parts.getLastD first, cs)

/-- Reads the items of an array after its bracket; fewer of them than the limit. -/
def items (item : List Char → Option (Value × List Char)) :
    Nat → List Char → Option (List Value × List Char)
  | 0, _ => none
  | limit + 1, cs => do
    match ← skipFiller false cs with
    | ']' :: rest => return ([], rest)
    | cs =>
      let (value, cs) ← item cs
      match ← skipFiller false cs with
      | ',' :: rest =>
        let (values, rest) ← items item limit rest
        return (value :: values, rest)
      | ']' :: rest => return ([value], rest)
      | _ => none

def pair (item : List Char → Option (Value × List Char)) (cs : List Char) :
    Option (Pair × List Char) := do
  let (path, key, cs) ← dottedKey cs
  match cs with
  | '=' :: cs =>
    let (value, cs) ← item (skipSpace cs)
    return (⟨path, key, value⟩, cs)
  | _ => none

def morePairs (item : List Char → Option (Value × List Char)) :
    Nat → List Char → Option (List Pair × List Char)
  | 0, _ => none
  | limit + 1, cs =>
    match skipSpace cs with
    | ',' :: rest => do
      let (first, rest) ← pair item rest
      let (pairs, rest) ← morePairs item limit rest
      return (first :: pairs, rest)
    | '}' :: rest => some ([], rest)
    | _ => none

def inlinePairs (item : List Char → Option (Value × List Char)) (cs : List Char) :
    Option (List Pair × List Char) :=
  match skipSpace cs with
  | '}' :: rest => some ([], rest)
  | cs => do
    let (first, cs) ← pair item cs
    let (pairs, cs) ← morePairs item cs.length.succ cs
    return (first :: pairs, cs)

def inlineTable (item : List Char → Option (Value × List Char)) (cs : List Char) :
    Option (Value × List Char) := do
  let (pairs, cs) ← inlinePairs item cs
  let entries ← Entries.addPairs pairs []
  return (.table .inline entries, cs)

def value : Nat → List Char → Option (Value × List Char)
  | levels, cs =>
    match cs with
    | [] => none
    | c :: rest =>
      if c = '"' ∨ c = '\'' then
        (Unquote.read cs).map fun (text, rest) => (.string text, rest)
      else if c = '[' then
        match levels with
        | 0 => none
        | levels + 1 =>
          (items (value levels) rest.length.succ rest).map fun (values, rest) =>
            (.array false values, rest)
      else if c = '{' then
        match levels with
        | 0 => none
        | levels + 1 => inlineTable (value levels) rest
      else
        let (token, rest) := Scalar.split cs
        (Scalar.ofChars? token).map (·, rest)

inductive Statement where
  | header (header : Header)
  | pair (pair : Pair)
  deriving Repr

def statement : List Char → Option (Statement × List Char)
  | '[' :: '[' :: rest => do
    let (path, key, rest) ← dottedKey rest
    match rest with
    | ']' :: ']' :: rest => return (.header (.element path key), rest)
    | _ => none
  | '[' :: rest => do
    let (path, key, rest) ← dottedKey rest
    match rest with
    | ']' :: rest => return (.header (.table path key), rest)
    | _ => none
  | cs => (pair (value (nestingLimit - 1)) cs).map fun (pair, rest) => (.pair pair, rest)

def statements : Nat → List Char → Option (List Statement)
  | 0, _ => none
  | limit + 1, cs =>
    match skipSpace cs with
    | [] => some []
    | c :: rest =>
      if c = '#' ∨ c = '\n' ∨ c = '\r' then do
        let rest ← trailing (c :: rest)
        statements limit rest
      else do
        let (first, rest) ← statement (c :: rest)
        let rest ← trailing rest
        let more ← statements limit rest
        return first :: more

/-- The pairs before the first header, and the blocks. -/
def gather : List Statement → List Pair × List Block
  | [] => ([], [])
  | .pair pair :: rest =>
    let (pairs, blocks) := gather rest
    (pair :: pairs, blocks)
  | .header header :: rest =>
    let (pairs, blocks) := gather rest
    ([], ⟨header, pairs⟩ :: blocks)

def dropMark : List Char → List Char
  | c :: rest => if c = '\uFEFF' then rest else c :: rest
  | [] => []

end Reader

def Document.read? (cs : List Char) : Option Document := do
  let statements ← Reader.statements (cs.length + 1) (Reader.dropMark cs)
  let (opening, blocks) := Reader.gather statements
  return ⟨opening, blocks⟩

def Entries.ofText? (text : String) : Option Entries :=
  (Document.read? text.toList) >>= Document.entries?

end Triliteral.Toml
