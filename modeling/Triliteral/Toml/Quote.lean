/-!
Writing a text as a TOML string. Of the four kinds of strings the plainest one is chosen that
can hold the text; only texts that no other kind can hold are written with escapes.
-/

namespace Triliteral.Toml.Quote

def isControl (c : Char) : Bool :=
  (c.toNat < 0x20 && c != '\t' && c != '\n') || c.toNat == 0x7F

def longestRun (quote : Char) : List Char → Nat :=
  let rec go (current longest : Nat) : List Char → Nat
    | [] => max current longest
    | c :: rest => if c = quote then go (current + 1) longest rest
      else go 0 (max current longest) rest
  go 0 0

inductive Style where
  | basic
  | literal
  | multilineBasic
  | multilineLiteral
  deriving DecidableEq, Repr

def styleOf (cs : List Char) : Style :=
  let control := cs.any isControl
  let newline := cs.contains '\n'
  let backslash := cs.contains '\\'
  let singles := longestRun '\'' cs
  let doubles := longestRun '"' cs
  if !control && !backslash && doubles == 0 && !newline then .basic
  else if !control && singles == 0 && !newline then .literal
  else if !control && !backslash && doubles ≤ 2 then .multilineBasic
  else if !control && singles ≤ 2 then .multilineLiteral
  else if newline then .multilineBasic
  else .basic

def hexDigit (n : Nat) : Char :=
  if n < 10 then Char.ofNat ('0'.toNat + n) else Char.ofNat ('A'.toNat + (n - 10))

def escaped (c : Char) : List Char :=
  if c = '\t' then ['\\', 't']
  else if c = '\x08' then ['\\', 'b']
  else if c = '\x0c' then ['\\', 'f']
  else if c = '\r' then ['\\', 'r']
  else if c = '\\' then ['\\', '\\']
  else if isControl c then ['\\', 'u', '0', '0', hexDigit (c.toNat / 16), hexDigit (c.toNat % 16)]
  else [c]

def basicBody (cs : List Char) : List Char :=
  cs.flatMap fun c =>
    if c = '"' then ['\\', '"'] else if c = '\n' then ['\\', 'n'] else escaped c

/-- The inside of a string with double quotes over several lines; `run` quotes stand directly
before it. The third quote of a run is escaped and begins a new run. -/
def multilineBody (run : Nat) : List Char → List Char
  | [] => []
  | c :: rest =>
    if c = '"' then
      if run = 2 then '\\' :: '"' :: multilineBody 0 rest else '"' :: multilineBody (run + 1) rest
    else escaped c ++ multilineBody 0 rest

/-- A text with a line feed starts on the line after the opening quotes. -/
def opening (cs : List Char) : List Char :=
  if cs.contains '\n' then ['\n'] else []

def chars (cs : List Char) : List Char :=
  match styleOf cs with
  | .basic => '"' :: basicBody cs ++ ['"']
  | .literal => '\'' :: cs ++ ['\'']
  | .multilineBasic =>
    '"' :: '"' :: '"' :: opening cs ++ multilineBody 0 cs ++ ['"', '"', '"']
  | .multilineLiteral => '\'' :: '\'' :: '\'' :: opening cs ++ cs ++ ['\'', '\'', '\'']

end Triliteral.Toml.Quote
