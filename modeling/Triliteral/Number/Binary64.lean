import Triliteral.Text.Decimal

/-!
Binary floating-point numbers of 64 bits, as exact values: reading a decimal fraction rounds
to the nearest number, a tie to the even mantissa; writing uses the fewest digits that read
back and of those the nearest, a tie away from zero, always in positional notation.
-/

namespace Triliteral

/-- A number of the format. A finite one is its mantissa times a power of two, with a mantissa
below `2 ^ 53`, and not below `2 ^ 52` unless the exponent is the least one. -/
inductive Binary64 where
  | nan
  | infinity (negative : Bool)
  | finite (negative : Bool) (mantissa : Nat) (exponent : Int)
  deriving DecidableEq, Repr

namespace Binary64

/-- The least mantissa of a number whose exponent is not the least one, `2 ^ 52`. -/
def leastNormal : Nat := 4503599627370496

def leastExponent : Int := -1074

def greatestExponent : Int := 971

def roundHalfEven (numerator denominator : Nat) : Nat :=
  let quotient := numerator / denominator
  let twice := 2 * (numerator % denominator)
  if denominator < twice ∨ (twice = denominator ∧ quotient % 2 = 1) then quotient + 1
  else quotient

/-- `x * base ^ exponent` as a numerator and a denominator, for `x` a quotient itself. -/
def scale (numerator denominator base : Nat) (exponent : Int) : Nat × Nat :=
  if exponent < 0 then (numerator, denominator * Nat.pow base exponent.natAbs)
  else (numerator * Nat.pow base exponent.natAbs, denominator)

def floorLog2 (numerator denominator : Nat) : Int :=
  let guess : Int := (numerator.log2 : Int) - (denominator.log2 : Int)
  let (n, d) := scale numerator denominator 2 (-guess)
  if d ≤ n then guess else guess - 1

def ofQuotient (negative : Bool) (numerator denominator : Nat) : Binary64 :=
  if numerator = 0 then .finite negative 0 leastExponent
  else
    let exponent := max leastExponent (floorLog2 numerator denominator - 52)
    let (n, d) := scale numerator denominator 2 (-exponent)
    let mantissa := roundHalfEven n d
    let (mantissa, exponent) :=
      if mantissa = 2 * leastNormal then (leastNormal, exponent + 1) else (mantissa, exponent)
    if greatestExponent < exponent then .infinity negative
    else .finite negative mantissa exponent

/-- The number nearest to a decimal fraction, given by its digits and a power of ten. Powers
far out of range are settled without computing them. -/
def ofDecimal (negative : Bool) (digits : List Char) (exponent : Int) : Binary64 :=
  let n := Text.Decimal.value digits
  if n = 0 ∨ exponent + digits.length < -400 then ofQuotient negative 0 1
  else if 400 < exponent + digits.length ∧ 400 < exponent then .infinity negative
  else
    let (numerator, denominator) := scale n 1 10 exponent
    ofQuotient negative numerator denominator

def isZero : Binary64 → Bool
  | .finite _ mantissa _ => mantissa == 0
  | _ => false

/-- The points of the grid of multiples of `10 ^ t` on both sides of a positive number, those
of them that read back as it, the nearer one chosen and of two equally near ones the greater: as
the multiple. The arguments are the mantissa and exponent of the number. -/
def nearestOnGrid? (mantissa : Nat) (exponent : Int) (t : Int) : Option Nat :=
  -- in quarters of the last place, the number and the ends of what rounds to it
  let upper := 4 * mantissa + 2
  let lower :=
    if mantissa = leastNormal ∧ leastExponent < exponent then 4 * mantissa - 1
    else 4 * mantissa - 2
  let (_, unitDen) := scale 1 1 2 (exponent - 2)
  let (unitNum, _) := scale 1 1 2 (exponent - 2)
  let (gridNum, gridDen) := scale 1 1 10 t
  -- a multiple `c` of the grid is `c * gridNum * unitDen / (gridDen * unitNum)` quarters
  let step := gridNum * unitDen
  let whole := gridDen * unitNum
  let inside (c : Nat) : Bool :=
    if mantissa % 2 = 0 then lower * whole ≤ c * step && c * step ≤ upper * whole
    else lower * whole < c * step && c * step < upper * whole
  let below := 4 * mantissa * whole / step
  let above := below + 1
  match inside below, inside above with
  | true, true =>
    if 4 * mantissa * whole - below * step < above * step - 4 * mantissa * whole then
      some below
    else some above
  | true, false => some below
  | false, true => some above
  | false, false => none

/-- Tries finer and finer grids, from `10 ^ t` down. -/
def shortest (mantissa : Nat) (exponent : Int) : Nat → Int → Nat × Int
  | 0, t => (0, t)
  | fuel + 1, t =>
    match nearestOnGrid? mantissa exponent t with
    | some c => (c, t)
    | none => shortest mantissa exponent fuel (t - 1)

def positional (c : Nat) (t : Int) : List Char :=
  let ds := Text.Decimal.digits c
  if 0 ≤ t then ds ++ List.replicate t.natAbs '0'
  else
    let places := t.natAbs
    let ds := List.replicate (places + 1 - ds.length) '0' ++ ds
    ds.take (ds.length - places) ++ '.' :: ds.drop (ds.length - places)

/-- The fewest digits that read back, without an exponent and without a point for a whole
number. -/
def chars : Binary64 → List Char
  | .nan => "NaN".toList
  | .infinity negative => (if negative then ['-'] else []) ++ "inf".toList
  | .finite negative mantissa exponent =>
    (if negative then ['-'] else []) ++
      if mantissa = 0 then ['0']
      else
        let (c, t) := shortest mantissa exponent 1500 310
        positional c t

def text (x : Binary64) : String :=
  String.ofList x.chars

/-- The nearest whole number, a half away from zero, brought into the range from zero to a
limit. What is no number counts as zero. -/
def toNatClamped (limit : Nat) : Binary64 → Nat
  | .nan => 0
  | .infinity negative => if negative then 0 else limit
  | .finite negative mantissa exponent =>
    if negative then 0
    else
      let (n, d) := scale mantissa 1 2 exponent
      min limit ((2 * n + d) / (2 * d))

end Binary64

end Triliteral
