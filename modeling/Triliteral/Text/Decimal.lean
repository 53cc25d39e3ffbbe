/-!
Natural numbers in decimal digits. Main statement: `value_digits`, the digits of a number
read back as that number.
-/

namespace Triliteral.Text.Decimal

def digit (n : Nat) : Char :=
  Char.ofNat ('0'.toNat + n % 10)

def isDigit (c : Char) : Bool :=
  '0'.toNat ≤ c.toNat && c.toNat ≤ '9'.toNat

def digitValue (c : Char) : Nat :=
  c.toNat - '0'.toNat

def digits (n : Nat) : List Char :=
  if n < 10 then [digit n] else digits (n / 10) ++ [digit n]
termination_by n

/-- The last digits of a number, exactly as many as asked for. -/
def padded : Nat → Nat → List Char
  | 0, _ => []
  | width + 1, n => padded width (n / 10) ++ [digit n]

def value (cs : List Char) : Nat :=
  cs.foldl (fun n c => 10 * n + digitValue c) 0

def text (n : Nat) : String :=
  String.ofList (digits n)

theorem digitValue_digit (n : Nat) : digitValue (digit n) = n % 10 := by
  have h : n % 10 < 10 := Nat.mod_lt _ (by decide)
  have cases : ∀ m, m < 10 → digitValue (Char.ofNat ('0'.toNat + m)) = m := by decide
  exact cases _ h

theorem isDigit_digit (n : Nat) : isDigit (digit n) = true := by
  have h : n % 10 < 10 := Nat.mod_lt _ (by decide)
  have cases : ∀ m, m < 10 → isDigit (Char.ofNat ('0'.toNat + m)) = true := by decide
  exact cases _ h

theorem value_append_singleton (cs : List Char) (c : Char) :
    value (cs ++ [c]) = 10 * value cs + digitValue c := by
  simp [value]

theorem value_digits (n : Nat) : value (digits n) = n := by
  fun_induction digits n with
  | case1 n h =>
    have := digitValue_digit n
    simp only [value, List.foldl_cons, List.foldl_nil, this]
    omega
  | case2 n h ih =>
    rw [value_append_singleton, ih, digitValue_digit]
    omega

theorem isDigit_of_mem_digits {n : Nat} {c : Char} (h : c ∈ digits n) : isDigit c = true := by
  fun_induction digits n with
  | case1 n _ =>
    obtain rfl := List.mem_singleton.mp h
    exact isDigit_digit n
  | case2 n _ ih =>
    rcases List.mem_append.mp h with h | h
    · exact ih h
    · obtain rfl := List.mem_singleton.mp h
      exact isDigit_digit n

theorem length_padded (width n : Nat) : (padded width n).length = width := by
  induction width generalizing n with
  | zero => rfl
  | succ width ih => simp [padded, ih]

theorem value_padded {width n : Nat} (h : n < Nat.pow 10 width) : value (padded width n) = n := by
  induction width generalizing n with
  | zero => simp [padded, value] at *; omega
  | succ width ih =>
    have : n / 10 < Nat.pow 10 width := by
      rw [Nat.div_lt_iff_lt_mul (by decide)]
      simpa [Nat.pow_succ] using h
    rw [padded, value_append_singleton, ih this, digitValue_digit]
    omega

end Triliteral.Text.Decimal
