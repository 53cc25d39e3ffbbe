import Mathlib.Data.List.Basic
import Triliteral.Root

/-!
The order of roots is strict and total, and it is the order of their texts. A text is that of a
root exactly if it has three characters.
-/

namespace Triliteral.Root

theorem letters_injective {a b : Root} (h : a.letters = b.letters) : a = b := by
  cases a
  cases b
  simpa [letters] using h

theorem lt_irrefl (a : Root) : ¬ a < a :=
  List.lt_irrefl a.letters

theorem lt_trans {a b c : Root} (hab : a < b) (hbc : b < c) : a < c :=
  List.lt_trans hab hbc

theorem ne_of_lt {a b : Root} (h : a < b) : a ≠ b := by
  rintro rfl
  exact lt_irrefl a h

theorem not_lt_of_lt {a b : Root} (h : a < b) : ¬ b < a :=
  fun h' => lt_irrefl a (lt_trans h h')

theorem eq_of_not_lt {a b : Root} (h : ¬ a < b) (h' : ¬ b < a) : a = b :=
  letters_injective (List.le_antisymm (List.not_lt.mp h') (List.not_lt.mp h))

theorem text_lt_text_iff {a b : Root} : a.text < b.text ↔ a < b := by
  change a.text.toList < b.text.toList ↔ a.letters < b.letters
  simp only [text, String.toList_ofList]

theorem ofText?_eq_none_iff {text : String} : ofText? text = none ↔ text.length ≠ 3 := by
  rw [← String.length_toList, ofText?]
  constructor
  · intro hnone hlength
    obtain ⟨a, b, c, habc⟩ := List.length_eq_three.mp hlength
    simp [habc, ofLetters?] at hnone
  · intro hlength
    unfold ofLetters?
    split
    · next a b c habc => simp [habc] at hlength
    · rfl

theorem length_text (root : Root) : root.text.length = 3 := by
  by_contra hlength
  have hnone := ofText?_eq_none_iff.mpr hlength
  rw [ofText?_text] at hnone
  cases hnone

theorem exists_text_eq_iff {text : String} :
    (∃ root : Root, root.text = text) ↔ text.length = 3 := by
  constructor
  · rintro ⟨root, rfl⟩
    exact root.length_text
  · intro hlength
    cases hroot : ofText? text with
    | none => exact absurd hlength (ofText?_eq_none_iff.mp hroot)
    | some root => exact ⟨root, (ofText?_eq_some_iff.mp hroot).symm⟩

end Triliteral.Root
