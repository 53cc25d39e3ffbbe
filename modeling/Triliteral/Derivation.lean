import Triliteral.Instant.Basic

/-!
Derivations: the words recorded on a root, each with the scheme that made it.
-/

namespace Triliteral

structure Derivation where
  word : String
  scheme : String
  recordedAt : Instant
  deriving DecidableEq

namespace Derivation

/-- Adds a derivation at the end, unless its word is there already. -/
def record (derivation : Derivation) (history : List Derivation) : List Derivation :=
  if history.any fun earlier => earlier.word == derivation.word then history
  else history ++ [derivation]

end Derivation

end Triliteral
