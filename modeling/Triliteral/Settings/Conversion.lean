import Triliteral.Toml.Scalar

/-!
Values of settings. A layer may give a setting by a value of another kind than its own: all
kinds but arrays and tables are converted where that makes sense.
-/

namespace Triliteral.Settings

open Toml (Value)

/-- The greatest number that a setting can be; it has 64 bits. -/
def maxCount : Nat := 18446744073709551615

def lowerCase (text : String) : String :=
  String.ofList (text.toList.map Char.toLower)

def textOf? : Value → Option String
  | .string text => some text
  | .integer n =>
    some (if n < 0 then "-" ++ Text.Decimal.text n.natAbs else Text.Decimal.text n.natAbs)
  | .float x => some x.text
  | .boolean b => some (if b then "true" else "false")
  | .moment text => some text
  | .array .. | .table .. => none

def wordOfTruth? (text : String) : Option Bool :=
  match lowerCase text with
  | "true" | "on" | "yes" => some true
  | "false" | "off" | "no" => some false
  | _ => none

def truthOfText? (text : String) : Option Bool :=
  match text with
  | "1" => some true
  | "0" => some false
  | _ => wordOfTruth? text

/-- A truth value; of the numbers only zero is false. -/
def truthOf? : Value → Option Bool
  | .boolean b => some b
  | .integer n => some (n != 0)
  | .float x => some !x.isZero
  | .string text | .moment text => truthOfText? text
  | .array .. | .table .. => none

/-- A number in decimal digits, with or without a plus sign. -/
def digitsOf? (cs : List Char) : Option Nat :=
  let ds :=
    match cs with
    | '+' :: rest => rest
    | _ => cs
  if !ds.isEmpty && ds.all Text.Decimal.isDigit then
    let n := Text.Decimal.value ds
    if n ≤ maxCount then some n else none
  else none

def countOfText? (text : String) : Option Nat :=
  match wordOfTruth? text with
  | some b => some b.toNat
  | none => digitsOf? text.toList

/-- A number that is not negative. A fraction is rounded, a half away from zero, and what is
out of range is brought into it. -/
def countOf? : Value → Option Nat
  | .boolean b => some b.toNat
  | .integer n => if n < 0 then none else some n.natAbs
  | .float x => some (x.toNatClamped maxCount)
  | .string text | .moment text => countOfText? text
  | .array .. | .table .. => none

end Triliteral.Settings
