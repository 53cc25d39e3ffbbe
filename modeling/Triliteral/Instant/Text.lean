import Triliteral.Instant.Basic
import Triliteral.Text.Decimal

/-!
The written form of an instant, in the profile of RFC 3339: the date, `T`, the time with the
fewest of zero, three, six or nine fraction digits that is exact, and `Z`.
-/

namespace Triliteral.Instant

open Text.Decimal

/-- Four digits for the years 0 to 9999; any other year has its sign in front. -/
def yearChars (year : Int) : List Char :=
  if 0 ≤ year ∧ year ≤ 9999 then padded 4 year.toNat
  else
    let sign := if year < 0 then '-' else '+'
    sign :: if year.natAbs ≤ 9999 then padded 4 year.natAbs else digits year.natAbs

def dateChars (date : Date) : List Char :=
  yearChars date.year ++ '-' :: padded 2 date.month ++ '-' :: padded 2 date.day

def clockChars (time : TimeOfDay) : List Char :=
  padded 2 time.hour ++ ':' :: padded 2 time.minute ++ ':' :: padded 2 time.second

def fractionChars (nanosecond : Nat) : List Char :=
  if nanosecond = 0 then []
  else if nanosecond % 1000000 = 0 then '.' :: padded 3 (nanosecond / 1000000)
  else if nanosecond % 1000 = 0 then '.' :: padded 6 (nanosecond / 1000)
  else '.' :: padded 9 nanosecond

def chars (instant : Instant) : List Char :=
  dateChars instant.date ++ 'T' :: clockChars instant.time ++
    fractionChars instant.time.nanosecond ++ ['Z']

def text (instant : Instant) : String :=
  String.ofList instant.chars

def plainText (instant : Instant) : String :=
  String.ofList (dateChars instant.date ++ ' ' :: clockChars instant.time)

end Triliteral.Instant
