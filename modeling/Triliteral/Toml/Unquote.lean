/-!
Reading a TOML string of any of the four kinds. The reader goes through the text one
character at a time; what it has seen so far of an escape, a run of quotes or a line end is
its state.
-/

namespace Triliteral.Toml.Unquote

def isPlain (c : Char) : Bool :=
  c == '\t' || (0x20 ≤ c.toNat && c.toNat != 0x7F)

structure Delimiter where
  quote : Char
  multiline : Bool
  deriving DecidableEq, Repr

inductive State where
  /-- Directly after the opening quotes, where a line end is dropped. -/
  | opening
  /-- After a carriage return there. -/
  | openingReturn
  | text
  | escape
  /-- In an escape by code point, with so many digits to come. -/
  | codePoint (digits : Nat) (value : Nat)
  /-- After a backslash and blanks, with or without a line end among them. -/
  | gap (ended : Bool)
  /-- After a carriage return there. -/
  | gapReturn
  /-- After a carriage return in the text. -/
  | lineReturn
  /-- After a run of quotes, three of which may be the closing ones. -/
  | quotes (run : Nat)
  /-- After the closing quote of a string on one line. -/
  | closed
  deriving DecidableEq, Repr

inductive Step where
  | refuse
  /-- The character is read and adds this text. -/
  | proceed (text : List Char) (next : State)
  /-- The string ended before the character, and this is the rest of its text. -/
  | stop (text : List Char)
  deriving DecidableEq, Repr

def hexValue? (c : Char) : Option Nat :=
  if '0'.toNat ≤ c.toNat ∧ c.toNat ≤ '9'.toNat then some (c.toNat - '0'.toNat)
  else if 'a'.toNat ≤ c.toNat ∧ c.toNat ≤ 'f'.toNat then some (c.toNat - 'a'.toNat + 10)
  else if 'A'.toNat ≤ c.toNat ∧ c.toNat ≤ 'F'.toNat then some (c.toNat - 'A'.toNat + 10)
  else none

def textStep (d : Delimiter) (c : Char) : Step :=
  if c = d.quote then .proceed [] (if d.multiline then .quotes 1 else .closed)
  else if c = '\\' ∧ d.quote = '"' then .proceed [] .escape
  else if c = '\n' ∧ d.multiline then .proceed ['\n'] .text
  else if c = '\r' ∧ d.multiline then .proceed [] .lineReturn
  else if isPlain c then .proceed [c] .text
  else .refuse

def escapeStep (d : Delimiter) (c : Char) : Step :=
  if c = 'b' then .proceed ['\x08'] .text
  else if c = 't' then .proceed ['\t'] .text
  else if c = 'n' then .proceed ['\n'] .text
  else if c = 'f' then .proceed ['\x0c'] .text
  else if c = 'r' then .proceed ['\r'] .text
  else if c = '"' then .proceed ['"'] .text
  else if c = '\\' then .proceed ['\\'] .text
  else if c = 'u' then .proceed [] (.codePoint 4 0)
  else if c = 'U' then .proceed [] (.codePoint 8 0)
  else if !d.multiline then .refuse
  else if c = ' ' ∨ c = '\t' then .proceed [] (.gap false)
  else if c = '\n' then .proceed [] (.gap true)
  else if c = '\r' then .proceed [] .gapReturn
  else .refuse

/-- A digit of an escape by code point; after the last one the code point must be that of a
character. -/
def codePointStep (digits value : Nat) (c : Char) : Step :=
  match hexValue? c with
  | none => .refuse
  | some digit =>
    let value := 16 * value + digit
    if 1 < digits then .proceed [] (.codePoint (digits - 1) value)
    else if value.isValidChar then .proceed [Char.ofNat value] .text
    else .refuse

def Step.after (text : List Char) : Step → Step
  | .refuse => .refuse
  | .proceed more next => .proceed (text ++ more) next
  | .stop more => .stop (text ++ more)

def step (d : Delimiter) (state : State) (c : Char) : Step :=
  match state with
  | .opening =>
    if c = '\n' then .proceed [] .text
    else if c = '\r' then .proceed [] .openingReturn
    else textStep d c
  | .openingReturn => if c = '\n' then .proceed [] .text else .refuse
  | .text => textStep d c
  | .escape => escapeStep d c
  | .codePoint digits value => codePointStep digits value c
  | .gap ended =>
    if c = ' ' ∨ c = '\t' then .proceed [] (.gap ended)
    else if c = '\n' then .proceed [] (.gap true)
    else if c = '\r' then .proceed [] .gapReturn
    else if ended then textStep d c
    else .refuse
  | .gapReturn => if c = '\n' then .proceed [] (.gap true) else .refuse
  | .lineReturn => if c = '\n' then .proceed ['\n'] .text else .refuse
  | .quotes run =>
    if c = d.quote ∧ run < 5 then .proceed [] (.quotes (run + 1))
    else if 3 ≤ run then .stop (List.replicate (run - 3) d.quote)
    else (textStep d c).after (List.replicate run d.quote)
  | .closed => .stop []

def finish (d : Delimiter) : State → Option (List Char)
  | .quotes run => if 3 ≤ run then some (List.replicate (run - 3) d.quote) else none
  | .closed => some []
  | _ => none

def scan (d : Delimiter) (state : State) : List Char → Option (List Char × List Char)
  | [] => (finish d state).map (·, [])
  | c :: rest =>
    match step d state c with
    | .refuse => none
    | .proceed text next => (scan d next rest).map fun (more, rest) => (text ++ more, rest)
    | .stop text => some (text, c :: rest)

def readLine : List Char → Option (String × List Char)
  | '"' :: rest => (scan ⟨'"', false⟩ .text rest).map fun (cs, rest) => (String.ofList cs, rest)
  | '\'' :: rest => (scan ⟨'\'', false⟩ .text rest).map fun (cs, rest) => (String.ofList cs, rest)
  | _ => none

def read : List Char → Option (String × List Char)
  | '"' :: '"' :: '"' :: rest =>
    (scan ⟨'"', true⟩ .opening rest).map fun (cs, rest) => (String.ofList cs, rest)
  | '\'' :: '\'' :: '\'' :: rest =>
    (scan ⟨'\'', true⟩ .opening rest).map fun (cs, rest) => (String.ofList cs, rest)
  | cs => readLine cs

end Triliteral.Toml.Unquote
