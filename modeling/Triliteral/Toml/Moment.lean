import Triliteral.Instant.Text

/-!
Dates and times of TOML: a date, a time of day, or both with or without an offset. They are
kept as text in a normal form, with `T` between date and time and no needless fraction.
-/

namespace Triliteral.Toml.Moment

open Text.Decimal

def twoDigits? : List Char → Option (Nat × List Char)
  | a :: b :: rest => if isDigit a && isDigit b then some (value [a, b], rest) else none
  | _ => none

def date? : List Char → Option (Date × List Char)
  | a :: b :: c :: d :: '-' :: rest => do
    if [a, b, c, d].all isDigit then
      let (month, rest) ← twoDigits? rest
      match rest with
      | '-' :: rest =>
        let (day, rest) ← twoDigits? rest
        let date ← Date.ofNumbers? (value [a, b, c, d]) month day
        return (date, rest)
      | _ => none
    else none
  | _ => none

/-- Reads a fraction as nanoseconds; digits after the ninth are dropped. -/
def fraction? : List Char → Option (Nat × List Char)
  | '.' :: rest =>
    match rest.takeWhile isDigit with
    | [] => none
    | ds =>
      let kept := ds.take 9
      some (value kept * Nat.pow 10 (9 - kept.length), rest.drop ds.length)
  | rest => some (0, rest)

def timeOfDay? (cs : List Char) : Option (TimeOfDay × List Char) := do
  let (hour, cs) ← twoDigits? cs
  match cs with
  | ':' :: cs =>
    let (minute, cs) ← twoDigits? cs
    match cs with
    | ':' :: cs =>
      let (second, cs) ← twoDigits? cs
      let (nanosecond, cs) ← fraction? cs
      let time ← TimeOfDay.ofNumbers? hour minute second nanosecond
      return (time, cs)
    | _ => none
  | _ => none

def offsetMinutes? (cs : List Char) : Option Nat := do
  let (hours, cs) ← twoDigits? cs
  match cs with
  | ':' :: cs =>
    let (minutes, cs) ← twoDigits? cs
    if cs.isEmpty ∧ hours < 24 ∧ minutes < 60 then return 60 * hours + minutes else none
  | _ => none

def offsetChars (sign : Char) (minutes : Nat) : List Char :=
  sign :: padded 2 (minutes / 60) ++ ':' :: padded 2 (minutes % 60)

/-- The offset that ends a text, in normal form: nothing, `Z`, or a sign and a time. No
minutes at all count as ahead. -/
def offset? : List Char → Option (List Char)
  | [] => some []
  | ['Z'] => some ['Z']
  | ['z'] => some ['Z']
  | '+' :: rest => (offsetMinutes? rest).map (offsetChars '+')
  | '-' :: rest =>
    (offsetMinutes? rest).map fun minutes =>
      offsetChars (if minutes = 0 then '+' else '-') minutes
  | _ => none

def timeChars (time : TimeOfDay) : List Char :=
  Instant.clockChars time ++
    if time.nanosecond = 0 then []
    else '.' :: ((padded 9 time.nanosecond).reverse.dropWhile (· == '0')).reverse

def read? (cs : List Char) : Option (List Char) :=
  match date? cs with
  | none =>
    match timeOfDay? cs with
    | some (time, []) => some (timeChars time)
    | _ => none
  | some (date, []) => some (Instant.dateChars date)
  | some (date, separator :: rest) =>
    if separator = 'T' ∨ separator = 't' ∨ separator = ' ' then
      match timeOfDay? rest with
      | some (time, rest) =>
        (offset? rest).map fun offset =>
          Instant.dateChars date ++ 'T' :: timeChars time ++ offset
      | none => none
    else none

end Triliteral.Toml.Moment
