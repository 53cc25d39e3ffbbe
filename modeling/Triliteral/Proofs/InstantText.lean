import Triliteral.Instant.Reader
import Triliteral.Instant.Text

/-!
The written form of an instant is read back, to the nanosecond, if its year has at most four digits.
-/

namespace Triliteral

namespace Text.Decimal

theorem isDigit_of_mem_padded {width n : Nat} {c : Char} (h : c ∈ padded width n) :
    isDigit c = true := by
  induction width generalizing n with
  | zero => exact absurd h List.not_mem_nil
  | succ width ih =>
      rcases List.mem_append.mp h with h | h
      · exact ih h
      · obtain rfl := List.mem_singleton.mp h
        exact isDigit_digit n

theorem padded_eq_cons {width : Nat} (hwidth : 0 < width) (n : Nat) :
    ∃ c rest, padded width n = c :: rest ∧ isDigit c = true := by
  cases hdigits : padded width n with
  | nil =>
      have := length_padded width n
      rw [hdigits, List.length_nil] at this
      omega
  | cons c rest => exact ⟨c, rest, rfl, isDigit_of_mem_padded (hdigits ▸ List.mem_cons_self)⟩

theorem takeWhile_padded (width n : Nat) {rest : List Char}
    (hrest : ∀ c ∈ rest.head?, isDigit c = false) :
    (padded width n ++ rest).takeWhile isDigit = padded width n := by
  rw [List.takeWhile_append_of_pos fun c => isDigit_of_mem_padded]
  cases rest with
  | nil => simp
  | cons c rest => simp [hrest c rfl]

end Text.Decimal

namespace Instant

open Reader Text.Decimal

def HasFourDigitYear (instant : Instant) : Prop :=
  0 ≤ instant.date.year ∧ instant.date.year ≤ 9999

instance (instant : Instant) : Decidable instant.HasFourDigitYear :=
  inferInstanceAs (Decidable (_ ∧ _))

theorem isBlank_of_isDigit {c : Char} (h : isDigit c = true) : Text.isBlank c = false := by
  simp only [isDigit, Bool.and_eq_true, decide_eq_true_eq] at h
  replace h : 48 ≤ c.toNat ∧ c.toNat ≤ 57 := h
  simp only [Text.isBlank, Text.blankRanges, List.any_cons, List.any_nil, Bool.or_eq_false_iff,
    Bool.and_eq_false_iff, decide_eq_false_iff_not, and_true]
  omega

theorem skipBlanks_cons {c : Char} (h : Text.isBlank c = false) (cs : List Char) :
    skipBlanks (c :: cs) = c :: cs := by
  simp [skipBlanks, h]

theorem number_padded {width n : Nat} (hwidth : 0 < width) (h : n < Nat.pow 10 width)
    (rest : List Char) : number width (padded width n ++ rest) = some (n, rest) := by
  have htake : (padded width n ++ rest).take width = padded width n :=
    List.take_left' (length_padded width n)
  have hdigits : (padded width n).takeWhile isDigit = padded width n := by
    simpa using @takeWhile_padded width n [] (by simp)
  obtain ⟨c, more, hcons, -⟩ := padded_eq_cons hwidth n
  rw [number, htake, hdigits]
  split
  · next heq => simp [hcons] at heq
  · rw [value_padded h, List.drop_left]

theorem skipBlanks_padded {width : Nat} (hwidth : 0 < width) (n : Nat) (rest : List Char) :
    skipBlanks (padded width n ++ rest) = padded width n ++ rest := by
  obtain ⟨c, more, hdigits, hc⟩ := padded_eq_cons hwidth n
  rw [hdigits, List.cons_append, skipBlanks_cons (isBlank_of_isDigit hc)]

theorem field_padded {n : Nat} (h : n < 100) (rest : List Char) :
    field (padded 2 n ++ rest) = some (n, rest) := by
  rw [field, skipBlanks_padded Nat.two_pos, number_padded Nat.two_pos h]

theorem readYear_padded {n : Nat} (h : n < 10000) (rest : List Char) :
    readYear (padded 4 n ++ rest) = some ((n : Int), rest) := by
  have hnumber := number_padded (by decide : 0 < 4) h rest
  rw [readYear, skipBlanks_padded (by decide : 0 < 4)]
  obtain ⟨c, more, hdigits, hc⟩ := padded_eq_cons (by decide : 0 < 4) n
  rw [hdigits, List.cons_append] at hnumber ⊢
  split
  · next heq =>
    obtain ⟨rfl, -⟩ := List.cons.inj heq
    exact absurd hc (by decide)
  · next heq =>
    obtain ⟨rfl, -⟩ := List.cons.inj heq
    exact absurd hc (by decide)
  · simp [hnumber]

theorem ofNumbers?_date (date : Date) :
    Date.ofNumbers? date.year date.month date.day = some date := by
  rw [Date.ofNumbers?, dif_pos date.month_mem, dif_pos date.day_mem]

theorem ofNumbers?_time (time : TimeOfDay) :
    TimeOfDay.ofNumbers? time.hour time.minute time.second time.nanosecond = some time := by
  rw [TimeOfDay.ofNumbers?,
    dif_pos ⟨time.hour_lt, time.minute_lt, time.second_le, time.nanosecond_lt⟩]

theorem readDate_dateChars {date : Date} (hyear : 0 ≤ date.year ∧ date.year ≤ 9999)
    (rest : List Char) : readDate (dateChars date ++ rest) = some (date, rest) := by
  obtain ⟨year, hdate⟩ := Int.eq_ofNat_of_zero_le hyear.1
  have hday : date.day ≤ 31 := by
    have := date.day_mem.2
    unfold daysInMonth at this
    grind
  have hmonth := date.month_mem
  have hread := readYear_padded (by omega : year < 10000)
    ('-' :: (padded 2 date.month ++ '-' :: (padded 2 date.day ++ rest)))
  have hmonthField := field_padded (by omega : date.month < 100)
    ('-' :: (padded 2 date.day ++ rest))
  have hdayField := field_padded (by omega : date.day < 100) rest
  have hdash : ∀ cs, skipBlanks ('-' :: cs) = '-' :: cs := skipBlanks_cons (by decide)
  have hrange : yearInRange date.year = true := by
    simp only [yearInRange, Bool.and_eq_true, decide_eq_true_eq]
    omega
  have hnumbers := ofNumbers?_date date
  rw [hdate] at hyear hnumbers hrange
  simp [readDate, dateChars, yearChars, hyear, hdate, hread, hdash, expect, hmonthField,
    hdayField, hnumbers, hrange]

theorem fraction_fractionChars {nanosecond : Nat} (h : nanosecond < 1000000000)
    (rest : List Char) :
    fraction (fractionChars nanosecond ++ 'Z' :: rest) = some (nanosecond, 'Z' :: rest) := by
  have hdigits : ∀ {width n bound scale : Nat}, 0 < width → width ≤ 9 →
      Nat.pow 10 width = bound → Nat.pow 10 (9 - width) = scale → n < bound →
      fraction ('.' :: padded width n ++ 'Z' :: rest) = some (n * scale, 'Z' :: rest) := by
    rintro width n _ _ hwidth hnine rfl rfl hn
    have htake := @takeWhile_padded width n ('Z' :: rest) (by simp [isDigit])
    obtain ⟨c, more, hcons, -⟩ := padded_eq_cons hwidth n
    have hkept : (padded width n).take 9 = padded width n :=
      List.take_of_length_le (by rw [length_padded]; exact hnine)
    rw [List.cons_append, fraction, htake]
    split
    · next heq => simp [hcons] at heq
    · simp only [hkept, value_padded hn, length_padded]
      rw [List.drop_left' (length_padded width n)]
  unfold fractionChars
  split
  · next hzero =>
    subst hzero
    rfl
  split
  · next hmillis =>
    have hsmall : nanosecond / 1000000 < 1000 := by omega
    have hscale : nanosecond / 1000000 * 1000000 = nanosecond := by omega
    rw [hdigits (by decide) (by decide) rfl rfl hsmall, Nat.pow_eq, hscale]
  split
  · next hmicros =>
    have hsmall : nanosecond / 1000 < 1000000 := by omega
    have hscale : nanosecond / 1000 * 1000 = nanosecond := by omega
    rw [hdigits (by decide) (by decide) rfl rfl hsmall, Nat.pow_eq, hscale]
  · rw [hdigits (by decide) (by decide) rfl rfl h, Nat.mul_one]

theorem timeOfDay_chars (time : TimeOfDay) (rest : List Char) :
    timeOfDay (clockChars time ++ (fractionChars time.nanosecond ++ 'Z' :: rest)) =
      some (time, 'Z' :: rest) := by
  have hhour := time.hour_lt
  have hminute := time.minute_lt
  have hsecond := time.second_le
  have hfraction := fraction_fractionChars time.nanosecond_lt rest
  have hhourField := field_padded (by omega : time.hour < 100)
    (':' :: (padded 2 time.minute ++ ':' ::
      (padded 2 time.second ++ (fractionChars time.nanosecond ++ 'Z' :: rest))))
  have hminuteField := field_padded (by omega : time.minute < 100)
    (':' :: (padded 2 time.second ++ (fractionChars time.nanosecond ++ 'Z' :: rest)))
  have hsecondField := field_padded (by omega : time.second < 100)
    (fractionChars time.nanosecond ++ 'Z' :: rest)
  have hcolon : ∀ cs, skipBlanks (':' :: cs) = ':' :: cs := skipBlanks_cons (by decide)
  simp [timeOfDay, clockChars, hhourField, hcolon, expect, hminuteField, hsecondField, hfraction,
    ofNumbers?_time]

theorem minuteOfDay_lt (time : TimeOfDay) : time.minuteOfDay < 1440 := by
  have hhour := time.hour_lt
  have hminute := time.minute_lt
  rw [TimeOfDay.minuteOfDay]
  omega

theorem atMinute_minuteOfDay (time : TimeOfDay) (h : time.minuteOfDay < 1440) :
    time.atMinute time.minuteOfDay h = time := by
  obtain ⟨hour, minute, second, nanosecond, hhour, hminute, hsecond, hnanosecond⟩ := time
  have hhours : (60 * hour + minute) / 60 = hour := by omega
  have hminutes : (60 * hour + minute) % 60 = minute := by omega
  simp [TimeOfDay.atMinute, TimeOfDay.minuteOfDay, hhours, hminutes]

theorem ofLocal?_zero (instant : Instant) :
    ofLocal? instant.date instant.time 0 = some instant := by
  have hday : 0 ≤ (instant.time.minuteOfDay : Int) - 0 ∧
      (instant.time.minuteOfDay : Int) - 0 < 1440 := by
    have := minuteOfDay_lt instant.time
    omega
  unfold ofLocal?
  rw [dif_pos hday]
  simp [atMinute_minuteOfDay]

/-- Every instant of a year of at most four digits is read back from its text. -/
theorem ofText?_text {instant : Instant} (hyear : instant.HasFourDigitYear) :
    ofText? instant.text = some instant := by
  unfold HasFourDigitYear at hyear
  have hdate := readDate_dateChars hyear
    ('T' :: (clockChars instant.time ++ (fractionChars instant.time.nanosecond ++ ['Z'])))
  have htime := timeOfDay_chars instant.time []
  have hzone : skipBlanks ['Z'] = ['Z'] := rfl
  have hrange : yearInRange instant.date.year = true := by
    simp only [yearInRange, Bool.and_eq_true, decide_eq_true_eq]
    omega
  simp only [ofText?, text, String.toList_ofList, chars, ofChars?, List.append_assoc,
    List.cons_append, hdate, separator, htime, hzone, offset, ofLocal?_zero, hrange,
    Option.bind_eq_bind, Option.bind_some, List.all_nil, if_true]
  rfl

end Instant

end Triliteral
