/-!
Instants of universal time, kept as a date of the proleptic Gregorian calendar and a time
of day. A minute may hold a leap second as its sixtieth.
-/

namespace Triliteral

def isLeapYear (year : Int) : Bool :=
  year % 4 == 0 && (year % 100 != 0 || year % 400 == 0)

/-- The number of days of a month; no days for a number that is no month. -/
def daysInMonth (year : Int) (month : Nat) : Nat :=
  if month = 2 then if isLeapYear year then 29 else 28
  else if month = 4 ∨ month = 6 ∨ month = 9 ∨ month = 11 then 30
  else if 1 ≤ month ∧ month ≤ 12 then 31
  else 0

theorem daysInMonth_pos (year : Int) {month : Nat} (h : 1 ≤ month ∧ month ≤ 12) :
    28 ≤ daysInMonth year month := by
  unfold daysInMonth
  repeat' split
  all_goals omega

structure Date where
  year : Int
  month : Nat
  day : Nat
  month_mem : 1 ≤ month ∧ month ≤ 12
  day_mem : 1 ≤ day ∧ day ≤ daysInMonth year month
  deriving DecidableEq

namespace Date

def ofNumbers? (year : Int) (month day : Nat) : Option Date :=
  if h : 1 ≤ month ∧ month ≤ 12 then
    if h' : 1 ≤ day ∧ day ≤ daysInMonth year month then
      some ⟨year, month, day, h, h'⟩
    else none
  else none

def monthStart (year : Int) (month : Nat) (h : 1 ≤ month ∧ month ≤ 12) : Date where
  year := year
  month := month
  day := 1
  month_mem := h
  day_mem := by have := daysInMonth_pos year h; omega

def monthEnd (year : Int) (month : Nat) (h : 1 ≤ month ∧ month ≤ 12) : Date where
  year := year
  month := month
  day := daysInMonth year month
  month_mem := h
  day_mem := by have := daysInMonth_pos year h; omega

def next (date : Date) : Date :=
  if h : date.day < daysInMonth date.year date.month then
    { date with day := date.day + 1, day_mem := ⟨by omega, h⟩ }
  else if h' : date.month < 12 then
    monthStart date.year (date.month + 1) (by omega)
  else
    monthStart (date.year + 1) 1 (by omega)

def previous (date : Date) : Date :=
  if h : 1 < date.day then
    { date with
      day := date.day - 1
      day_mem := ⟨by omega, by have := date.day_mem.2; omega⟩ }
  else if h' : 1 < date.month then
    monthEnd date.year (date.month - 1) (by have := date.month_mem; omega)
  else
    monthEnd (date.year - 1) 12 (by omega)

end Date

structure TimeOfDay where
  hour : Nat
  minute : Nat
  second : Nat
  nanosecond : Nat
  hour_lt : hour < 24
  minute_lt : minute < 60
  second_le : second ≤ 60
  nanosecond_lt : nanosecond < 1000000000
  deriving DecidableEq

namespace TimeOfDay

def ofNumbers? (hour minute second nanosecond : Nat) : Option TimeOfDay :=
  if h : hour < 24 ∧ minute < 60 ∧ second ≤ 60 ∧ nanosecond < 1000000000 then
    some ⟨hour, minute, second, nanosecond, h.1, h.2.1, h.2.2.1, h.2.2.2⟩
  else none

def minuteOfDay (time : TimeOfDay) : Nat :=
  60 * time.hour + time.minute

def atMinute (time : TimeOfDay) (minuteOfDay : Nat) (h : minuteOfDay < 1440) : TimeOfDay :=
  { time with
    hour := minuteOfDay / 60
    minute := minuteOfDay % 60
    hour_lt := by omega
    minute_lt := by omega }

end TimeOfDay

structure Instant where
  date : Date
  time : TimeOfDay
  deriving DecidableEq

namespace Instant

/-- The point of universal time that a clock shows, as a local date and time, in a place
whose clocks are this many minutes ahead. Less than a day's offset moves the date by at most
one day. -/
def ofLocal? (date : Date) (time : TimeOfDay) (minutesAhead : Int) : Option Instant :=
  let minutes : Int := time.minuteOfDay - minutesAhead
  if h : 0 ≤ minutes ∧ minutes < 1440 then
    some ⟨date, time.atMinute minutes.toNat (by omega)⟩
  else if h : -1440 ≤ minutes ∧ minutes < 0 then
    some ⟨date.previous, time.atMinute (minutes + 1440).toNat (by omega)⟩
  else if h : 1440 ≤ minutes ∧ minutes < 2880 then
    some ⟨date.next, time.atMinute (minutes - 1440).toNat (by omega)⟩
  else none

end Instant

end Triliteral
