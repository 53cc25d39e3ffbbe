import Triliteral.Proofs.TomlStrings
import Triliteral.Toml.Printer
import Triliteral.Toml.Reader

/-!
Values of printed documents. A value is read back from its written form if it is a string, an
integer of the format that is not negative, a truth value or an empty array.
-/

namespace Triliteral.Text.Decimal

theorem digits_ne_nil (n : Nat) : digits n ≠ [] := by
  rw [digits]
  split <;> simp

/-- Only the number zero has a zero in front. -/
theorem digits_eq_zero_cons {n : Nat} {rest : List Char} (h : digits n = '0' :: rest) :
    rest = [] := by
  induction n using Nat.strongRecOn generalizing rest with
  | _ n ih =>
      rw [digits] at h
      split at h
      · exact (List.cons.inj h).2.symm
      · next hlarge =>
        rcases hdigits : digits (n / 10) with _ | ⟨first, more⟩
        · exact absurd hdigits (digits_ne_nil (n / 10))
        · rw [hdigits, List.cons_append] at h
          obtain ⟨rfl, rfl⟩ := List.cons.inj h
          have hmore := ih (n / 10) (by omega) hdigits
          have hvalue := value_digits (n / 10)
          rw [hdigits, hmore] at hvalue
          have hzero : value ['0'] = 0 := rfl
          omega

end Triliteral.Text.Decimal

namespace Triliteral.Toml

open Text.Decimal

theorem Quote.chars_eq_cons (cs : List Char) :
    ∃ quote rest, chars cs = quote :: rest ∧ (quote = '"' ∨ quote = '\'') := by
  unfold chars
  split
  · exact ⟨_, _, rfl, .inl rfl⟩
  · exact ⟨_, _, rfl, .inr rfl⟩
  · exact ⟨_, _, rfl, .inl rfl⟩
  · exact ⟨_, _, rfl, .inr rfl⟩

namespace Scalar

/-! ### Numbers and truth values -/

theorem plainDigits?_eq {cs : List Char} (hnil : cs ≠ [])
    (hdigits : ∀ c ∈ cs, isDigit c = true) : plainDigits? isDigit cs = some cs := by
  induction cs with
  | nil => exact absurd rfl hnil
  | cons c cs ih =>
      rw [List.forall_mem_cons] at hdigits
      cases cs with
      | nil => simp [plainDigits?, hdigits.1]
      | cons next cs =>
          have hnext : next ≠ '_' := by
            rintro rfl
            exact absurd (hdigits.2 _ List.mem_cons_self) (by decide)
          have hrest := ih (List.cons_ne_nil next cs) hdigits.2
          unfold plainDigits?
          split
          · next heq => simp at heq
          · next heq => simp at heq
          · next heq => simp [hnext] at heq
          · next heq =>
            obtain ⟨rfl, rfl⟩ := List.cons.inj heq
            simp [hdigits.1, hrest]

theorem decimalDigits?_digits (n : Nat) : decimalDigits? (digits n) = some (digits n) := by
  rw [decimalDigits?, plainDigits?_eq (digits_ne_nil n) fun c => isDigit_of_mem_digits]
  split
  · next heq =>
    have := digits_eq_zero_cons (Option.some.inj heq)
    simp at this
  · rfl

theorem splitSign_digits (n : Nat) : splitSign (digits n) = (false, digits n) := by
  have hdigit : ∀ c ∈ digits n, isDigit c = true := fun c => isDigit_of_mem_digits
  unfold splitSign
  split
  · next heq => exact absurd (hdigit '-' (heq ▸ List.mem_cons_self)) (by decide)
  · next heq => exact absurd (hdigit '+' (heq ▸ List.mem_cons_self)) (by decide)
  · rfl

theorem integer?_digits {n : Nat} (h : n ≤ maxInteger) :
    integer? (digits n) = some (.integer n) := by
  have hdigit : ∀ {first second : Char} {rest : List Char},
      digits n = first :: second :: rest → isDigit second = true := by
    intro first second rest heq
    exact isDigit_of_mem_digits (heq ▸ List.mem_cons_of_mem _ List.mem_cons_self)
  have hbounded : -(maxInteger : Int) - 1 ≤ (n : Int) ∧ (n : Int) ≤ maxInteger := by
    omega
  unfold integer?
  split
  · next heq => exact absurd (hdigit heq) (by decide)
  · next heq => exact absurd (hdigit heq) (by decide)
  · next heq => exact absurd (hdigit heq) (by decide)
  · simp only [splitSign_digits, decimalDigits?_digits, Option.bind_eq_bind, Option.bind_some,
      value_digits, Bool.false_eq_true, if_false, bounded?]
    exact if_pos hbounded

theorem boolean?_digits (n : Nat) : boolean? (digits n) = none := by
  have hdigit : ∀ {c : Char} {rest : List Char}, digits n = c :: rest → isDigit c = true :=
    fun heq => isDigit_of_mem_digits (heq ▸ List.mem_cons_self)
  unfold boolean?
  split
  · next heq => exact absurd (hdigit heq) (by decide)
  split
  · next heq => exact absurd (hdigit heq) (by decide)
  · rfl

theorem isPart_of_isDigit {c : Char} (h : isDigit c = true) : isPart c = true := by
  have hdigit : c.isDigit = true := by
    simp only [isDigit, Bool.and_eq_true, decide_eq_true_eq] at h
    simp only [Char.isDigit, Bool.and_eq_true, decide_eq_true_eq]
    exact h
  simp [isPart, Char.isAlphanum, hdigit]

/-- A value without quotes or brackets ends where its line ends. -/
theorem split_line {token : List Char} (htoken : ∀ c ∈ token, isPart c = true)
    (rest : List Char) : split (token ++ '\n' :: rest) = (token, '\n' :: rest) := by
  have htake : (token ++ '\n' :: rest).takeWhile isPart = token := by
    rw [List.takeWhile_append_of_pos htoken]
    simp [isPart]
  have hdrop : (token ++ '\n' :: rest).dropWhile isPart = '\n' :: rest := by
    rw [List.dropWhile_append_of_pos htoken]
    simp [isPart]
  unfold split
  simp only [htake, hdrop]
  split
  · next heq => simp at heq
  · rfl

end Scalar

/-! ### Printed values -/

namespace Value

/-- Holds of the values that are written in a form of their own. -/
def Printable : Value → Prop
  | .string _ | .boolean _ | .array false [] => True
  | .integer n => 0 ≤ n ∧ n ≤ maxInteger
  | _ => False

theorem Printable.chars_eq_cons {v : Value} (hv : v.Printable) :
    ∃ c rest, v.chars = c :: rest ∧ Reader.isSpace c = false := by
  cases v with
  | string text =>
      obtain ⟨quote, rest, hchars, hquote⟩ := Quote.chars_eq_cons text.toList
      refine ⟨quote, rest, hchars, ?_⟩
      rcases hquote with rfl | rfl <;> decide
  | integer n =>
      obtain ⟨c, rest, hdigits⟩ := List.exists_cons_of_ne_nil (digits_ne_nil n.toNat)
      have hc : isDigit c = true := isDigit_of_mem_digits (hdigits ▸ List.mem_cons_self)
      refine ⟨c, rest, hdigits, ?_⟩
      rw [Bool.eq_false_iff]
      intro hspace
      simp only [Reader.isSpace, Bool.or_eq_true, beq_iff_eq] at hspace
      rcases hspace with rfl | rfl <;> exact absurd hc (by decide)
  | boolean b => cases b <;> exact ⟨_, _, rfl, by decide⟩
  | array => exact ⟨_, _, rfl, by decide⟩
  | float => exact hv.elim
  | moment => exact hv.elim
  | table => exact hv.elim

end Value

namespace Reader

theorem value_string (text : String) (levels : Nat) (rest : List Char) :
    value levels (Quote.chars text.toList ++ '\n' :: rest) =
      some (.string text, '\n' :: rest) := by
  have hread := Unquote.read_chars text.toList rest
  obtain ⟨quote, more, hchars, hquote⟩ := Quote.chars_eq_cons text.toList
  rw [hchars, List.cons_append] at hread ⊢
  rw [value.eq_def]
  simp only [if_pos hquote, hread, Option.map_some, String.ofList_toList]

theorem value_scalar {token : List Char} {v : Value} (hnil : token ≠ [])
    (htoken : ∀ c ∈ token, Scalar.isPart c = true) (hv : Scalar.ofChars? token = some v)
    (levels : Nat) (rest : List Char) :
    value levels (token ++ '\n' :: rest) = some (v, '\n' :: rest) := by
  have hsplit := Scalar.split_line htoken rest
  cases token with
  | nil => exact absurd rfl hnil
  | cons c token =>
      have hc : Scalar.isPart c = true := htoken c List.mem_cons_self
      have hquotes : ¬ (c = '"' ∨ c = '\'') := by
        rintro (rfl | rfl) <;> exact absurd hc (by decide)
      have hbracket : c ≠ '[' := by
        rintro rfl
        exact absurd hc (by decide)
      have hbrace : c ≠ '{' := by
        rintro rfl
        exact absurd hc (by decide)
      rw [List.cons_append] at hsplit ⊢
      rw [value.eq_def]
      simp only [if_neg hquotes, if_neg hbracket, if_neg hbrace, hsplit, hv, Option.map_some]

/-- A printed value is read back, up to the end of its line. -/
theorem value_chars {v : Value} (hv : v.Printable) (levels : Nat) (rest : List Char) :
    value (levels + 1) (v.chars ++ '\n' :: rest) = some (v, '\n' :: rest) := by
  cases v with
  | string text => exact value_string text (levels + 1) rest
  | integer n =>
      obtain ⟨hnonneg, hmax⟩ := hv
      obtain ⟨n, rfl⟩ := Int.eq_ofNat_of_zero_le hnonneg
      have hinteger := Scalar.integer?_digits (Int.ofNat_le.mp hmax)
      refine value_scalar (digits_ne_nil n)
        (fun c hc => Scalar.isPart_of_isDigit (isDigit_of_mem_digits hc)) ?_ (levels + 1) rest
      rw [Scalar.ofChars?, Scalar.boolean?_digits, hinteger]
  | boolean b =>
      cases b with
      | true =>
          have htoken : "true".toList.all Scalar.isPart = true := by decide
          exact value_scalar (by decide) (List.all_eq_true.mp htoken) rfl (levels + 1) rest
      | false =>
          have htoken : "false".toList.all Scalar.isPart = true := by decide
          exact value_scalar (by decide) (List.all_eq_true.mp htoken) rfl (levels + 1) rest
  | array growing items =>
      cases growing with
      | true => exact hv.elim
      | false =>
          cases items with
          | nil => simp [Value.chars, value, items, skipFiller, isSpace]
          | cons item items => exact hv.elim
  | float => exact hv.elim
  | moment => exact hv.elim
  | table => exact hv.elim

end Reader

end Triliteral.Toml
