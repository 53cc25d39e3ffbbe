import Triliteral.Toml.Moment
import Triliteral.Toml.Value

/-!
The values of TOML that are written without quotes or brackets: truth values, integers,
floating-point numbers, dates and times.
-/

namespace Triliteral.Toml.Scalar

open Text.Decimal

/-- Removes underscores, each of which must stand between two digits. At least one digit is
required, and nothing else may occur. -/
def plainDigits? (isDigit : Char → Bool) : List Char → Option (List Char)
  | [] => none
  | [c] => if isDigit c then some [c] else none
  | c :: '_' :: rest => if isDigit c then (plainDigits? isDigit rest).map (c :: ·) else none
  | c :: rest => if isDigit c then (plainDigits? isDigit rest).map (c :: ·) else none

def decimalDigits? (cs : List Char) : Option (List Char) :=
  match plainDigits? isDigit cs with
  | some ('0' :: _ :: _) => none
  | ds => ds

def splitSign : List Char → Bool × List Char
  | '-' :: rest => (true, rest)
  | '+' :: rest => (false, rest)
  | cs => (false, cs)

def bounded? (n : Int) : Option Value :=
  if -(maxInteger : Int) - 1 ≤ n ∧ n ≤ maxInteger then some (.integer n) else none

def digitOf (c : Char) : Nat :=
  if isDigit c then digitValue c
  else if 'a'.toNat ≤ c.toNat ∧ c.toNat ≤ 'f'.toNat then c.toNat - 'a'.toNat + 10
  else if 'A'.toNat ≤ c.toNat ∧ c.toNat ≤ 'F'.toNat then c.toNat - 'A'.toNat + 10
  else 16

def inBase? (base : Nat) (cs : List Char) : Option Value := do
  let ds ← plainDigits? (fun c => digitOf c < base) cs
  bounded? (ds.foldl (fun n c => base * n + digitOf c) 0 : Nat)

def integer? : List Char → Option Value
  | '0' :: 'x' :: rest => inBase? 16 rest
  | '0' :: 'o' :: rest => inBase? 8 rest
  | '0' :: 'b' :: rest => inBase? 2 rest
  | cs => do
    let (negative, cs) := splitSign cs
    let n := value (← decimalDigits? cs)
    bounded? (if negative then -(n : Int) else n)

def exponent? : List Char → Option Int
  | [] => some 0
  | c :: rest =>
    if c = 'e' ∨ c = 'E' then do
      let (negative, rest) := splitSign rest
      let n := value (← plainDigits? isDigit rest)
      return if negative then -(n : Int) else n
    else none

/-- A number with a fraction or a power of ten. One that is too large is refused, unless it
is negative. -/
def float? (cs : List Char) : Option Value := do
  let (negative, cs) := splitSign cs
  match cs with
  | ['i', 'n', 'f'] => return .float (.infinity negative)
  | ['n', 'a', 'n'] => return .float .nan
  | _ =>
    let isPart (c : Char) : Bool := isDigit c || c == '_'
    let whole ← decimalDigits? (cs.takeWhile isPart)
    let (places, rest) ←
      match cs.dropWhile isPart with
      | '.' :: rest => (plainDigits? isDigit (rest.takeWhile isPart)).map (·, rest.dropWhile isPart)
      | [] => none
      | rest => some ([], rest)
    let power ← exponent? rest
    match Binary64.ofDecimal negative (whole ++ places) (power - places.length) with
    | .infinity false => none
    | x => return .float x

def boolean? (cs : List Char) : Option Value :=
  if cs = "true".toList then some (.boolean true)
  else if cs = "false".toList then some (.boolean false)
  else none

def isPart (c : Char) : Bool :=
  c.isAlphanum || c == '+' || c == '-' || c == '_' || c == '.' || c == ':'

/-- The characters of the value at the beginning of a text, and what follows it. A space may
part a date from a time. -/
def split (cs : List Char) : List Char × List Char :=
  let token := cs.takeWhile isPart
  match Moment.date? token, cs.dropWhile isPart with
  | some (_, []), ' ' :: c :: rest =>
    if isDigit c then (token ++ ' ' :: (c :: rest).takeWhile isPart, (c :: rest).dropWhile isPart)
    else (token, ' ' :: c :: rest)
  | _, rest => (token, rest)

def ofChars? (cs : List Char) : Option Value :=
  match boolean? cs with
  | some v => some v
  | none =>
    match integer? cs with
    | some v => some v
    | none =>
      match float? cs with
      | some v => some v
      | none => (Moment.read? cs).map fun text => .moment (String.ofList text)

end Triliteral.Toml.Scalar
