import Triliteral.Fault
import Triliteral.Root
import Triliteral.Text.Blank

/-!
Placeholders: the three different symbols that mark, in a pattern, where the letters of a
root go. Main statement: `slotOf?_eq_some_iff`, a symbol marks one place only.
-/

namespace Triliteral

/-- One symbol for each place of a root, no two alike. -/
structure Placeholders where
  first : Char
  second : Char
  third : Char
  first_ne_second : first ≠ second
  second_ne_third : second ≠ third
  first_ne_third : first ≠ third
  deriving DecidableEq

namespace Placeholders

/-- The letters of the verb "to do", after which traditional grammar names its measures. -/
def standard : Placeholders :=
  ⟨'ف', 'ع', 'ل', by decide, by decide, by decide⟩

instance : Inhabited Placeholders := ⟨standard⟩

def symbol (p : Placeholders) : Slot → Char
  | .first => p.first
  | .second => p.second
  | .third => p.third

def symbols (p : Placeholders) : List Char :=
  [p.first, p.second, p.third]

def text (p : Placeholders) : String :=
  String.ofList p.symbols

def slotOf? (p : Placeholders) (c : Char) : Option Slot :=
  if c = p.first then some .first
  else if c = p.second then some .second
  else if c = p.third then some .third
  else none

def ofSymbols (first second third : Char) : Except Fault Placeholders :=
  if h : first ≠ second ∧ second ≠ third ∧ first ≠ third then
    .ok ⟨first, second, third, h.1, h.2.1, h.2.2⟩
  else
    .error (.invalidPlaceholders (String.ofList [first, second, third]))

/-- Reads three symbols after trimming. A text of another length is reported as it was
given, repeated symbols are reported alone. -/
def ofText (source : String) : Except Fault Placeholders :=
  match Text.trimChars source.toList with
  | [a, b, c] => ofSymbols a b c
  | _ => .error (.invalidPlaceholders source)

theorem slotOf?_symbol (p : Placeholders) (slot : Slot) :
    p.slotOf? (p.symbol slot) = some slot := by
  have h₁ := p.first_ne_second
  have h₂ := p.second_ne_third
  have h₃ := p.first_ne_third
  cases slot <;> simp [slotOf?, symbol, h₁.symm, h₂.symm, h₃.symm]

theorem slotOf?_eq_some_iff (p : Placeholders) {c : Char} {slot : Slot} :
    p.slotOf? c = some slot ↔ c = p.symbol slot := by
  constructor
  · unfold slotOf?
    split
    · rintro ⟨⟩; assumption
    · split
      · rintro ⟨⟩; assumption
      · split
        · rintro ⟨⟩; assumption
        · simp
  · rintro rfl
    exact p.slotOf?_symbol slot

end Placeholders

end Triliteral
