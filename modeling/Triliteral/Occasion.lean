import Triliteral.Instant.Epoch

/-!
What an engine does not decide itself: when a request is answered, and which scheme stands for all
that make the same word.
-/

namespace Triliteral

/-- The circumstances of a request: the time, and a choice among the names of schemes. -/
structure Occasion where
  time : Instant
  choose : List String → String
  choose_mem : ∀ {names : List String}, names ≠ [] → choose names ∈ names

namespace Occasion

def firstAt (time : Instant) : Occasion where
  time := time
  choose names := names.headD ""
  choose_mem {names} h := by
    cases names with
    | nil => exact absurd rfl h
    | cons name names => exact List.mem_cons_self

def ofEpoch (nanoseconds : Nat) : Occasion :=
  firstAt (.ofEpoch nanoseconds)

def shiftedTo (occasion : Occasion) (time : Instant) : Occasion :=
  { occasion with time }

end Occasion

end Triliteral
