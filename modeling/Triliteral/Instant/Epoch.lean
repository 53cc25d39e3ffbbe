import Triliteral.Instant.Basic

/-!
Instants by their distance from the beginning of the year 1970, as system clocks give them.
-/

namespace Triliteral

def Date.epoch : Date :=
  ⟨1970, 1, 1, by decide, by decide⟩

namespace TimeOfDay

def ofSeconds (seconds nanosecond : Nat) (h : seconds < 86400)
    (h' : nanosecond < 1000000000) : TimeOfDay where
  hour := seconds / 3600
  minute := seconds % 3600 / 60
  second := seconds % 60
  nanosecond := nanosecond
  hour_lt := by omega
  minute_lt := by omega
  second_le := by omega
  nanosecond_lt := h'

end TimeOfDay

/-- The instant a number of nanoseconds after the epoch. Every day has the same length. -/
def Instant.ofEpoch (nanoseconds : Nat) : Instant where
  date := Nat.repeat Date.next (nanoseconds / 1000000000 / 86400) Date.epoch
  time :=
    .ofSeconds (nanoseconds / 1000000000 % 86400) (nanoseconds % 1000000000)
      (Nat.mod_lt _ (by decide)) (Nat.mod_lt _ (by decide))

end Triliteral
