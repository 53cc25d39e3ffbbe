import Triliteral.Instant.Basic
import Triliteral.Text.Blank
import Triliteral.Text.Decimal

/-!
Reading an instant. The accepted texts are those of RFC 3339 and some more: blanks may stand
before every field and at the end, a field may have fewer digits than usual, the date may be
parted from the time by a space, the offset may lack its colon, and a year may carry a sign
and more digits. An offset is required.
-/

namespace Triliteral.Instant

namespace Reader

open Text.Decimal

def skipBlanks (cs : List Char) : List Char :=
  cs.dropWhile Text.isBlank

def expect (c : Char) : List Char → Option (List Char)
  | [] => none
  | d :: rest => if d = c then some rest else none

def number (limit : Nat) (cs : List Char) : Option (Nat × List Char) :=
  match (cs.take limit).takeWhile isDigit with
  | [] => none
  | ds => some (value ds, cs.drop ds.length)

def longNumber (cs : List Char) : Option (Nat × List Char) :=
  number cs.length cs

/-- Reads a field of one or two digits after blanks. -/
def field (cs : List Char) : Option (Nat × List Char) :=
  number 2 (skipBlanks cs)

/-- Reads a year: four digits at most, unless there is a sign. -/
def readYear (cs : List Char) : Option (Int × List Char) :=
  match skipBlanks cs with
  | '-' :: rest => do
    let (n, rest) ← longNumber rest
    return (-n, rest)
  | '+' :: rest => do
    let (n, rest) ← longNumber rest
    return (n, rest)
  | rest => do
    let (n, rest) ← number 4 rest
    return (n, rest)

/-- The years between which a date may be read, and to which its universal date may belong. -/
def yearInRange (year : Int) : Bool :=
  -262143 ≤ year && year ≤ 262142

def readDate (cs : List Char) : Option (Date × List Char) := do
  let (year, cs) ← readYear cs
  let cs ← expect '-' (skipBlanks cs)
  let (month, cs) ← field cs
  let cs ← expect '-' (skipBlanks cs)
  let (day, cs) ← field cs
  let date ← Date.ofNumbers? year month day
  if yearInRange date.year then return (date, cs) else none

/-- Reads an optional fraction as nanoseconds; digits after the ninth are dropped. -/
def fraction : List Char → Option (Nat × List Char)
  | '.' :: rest =>
    match rest.takeWhile isDigit with
    | [] => none
    | ds =>
      let kept := ds.take 9
      some (value kept * Nat.pow 10 (9 - kept.length), rest.drop ds.length)
  | rest => some (0, rest)

def timeOfDay (cs : List Char) : Option (TimeOfDay × List Char) := do
  let (hour, cs) ← field cs
  let cs ← expect ':' (skipBlanks cs)
  let (minute, cs) ← field cs
  let cs ← expect ':' (skipBlanks cs)
  let (second, cs) ← field cs
  let (nanosecond, cs) ← fraction cs
  let time ← TimeOfDay.ofNumbers? hour minute second nanosecond
  return (time, cs)

def twoDigits : List Char → Option (Nat × List Char)
  | a :: b :: rest => if isDigit a && isDigit b then some (value [a, b], rest) else none
  | _ => none

def offsetMinutes (cs : List Char) : Option (Nat × List Char) := do
  let (hours, cs) ← twoDigits cs
  let (minutes, cs) ← twoDigits (cs.dropWhile fun c => c == ':' || Text.isBlank c)
  if hours < 24 ∧ minutes < 60 then return (60 * hours + minutes, cs) else none

def offset : List Char → Option (Int × List Char)
  | 'Z' :: rest => some (0, rest)
  | 'z' :: rest => some (0, rest)
  | '+' :: rest => do
    let (minutes, rest) ← offsetMinutes rest
    return (minutes, rest)
  | '-' :: rest => do
    let (minutes, rest) ← offsetMinutes rest
    return (-minutes, rest)
  | '−' :: rest => do
    let (minutes, rest) ← offsetMinutes rest
    return (-minutes, rest)
  | a :: b :: c :: rest =>
    if [a, b, c].map Char.toUpper = ['U', 'T', 'C'] then some (0, rest) else none
  | _ => none

def separator : List Char → Option (List Char)
  | 'T' :: rest => some rest
  | 't' :: rest => some rest
  | ' ' :: rest => some rest
  | _ => none

end Reader

open Reader in
def ofChars? (cs : List Char) : Option Instant := do
  let (date, cs) ← readDate cs
  let cs ← separator cs
  let (time, cs) ← timeOfDay cs
  let (minutesAhead, cs) ← offset (skipBlanks cs)
  if cs.all Text.isBlank then
    let instant ← ofLocal? date time minutesAhead
    if yearInRange instant.date.year then return instant else none
  else none

def ofText? (text : String) : Option Instant :=
  ofChars? text.toList

end Triliteral.Instant
