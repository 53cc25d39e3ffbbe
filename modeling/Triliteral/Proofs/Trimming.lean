import Mathlib.Data.List.Basic
import Mathlib.Data.List.TakeWhile
import Triliteral.Text.Blank

/-!
Trimming takes the blanks at both ends of a text away, and nothing else. What is left has none
there, so that trimming it once more changes nothing.
-/

namespace Triliteral.Text

variable {cs before after : List Char}

/-- Holds of characters of which neither the first nor the last is a blank. -/
def HasBareEnds (cs : List Char) : Prop :=
  (∀ c ∈ cs.head?, isBlank c = false) ∧ ∀ c ∈ cs.getLast?, isBlank c = false

instance (cs : List Char) : Decidable (HasBareEnds cs) :=
  decidable_of_iff
    ((cs.head?.all fun c => !isBlank c) = true ∧ (cs.getLast?.all fun c => !isBlank c) = true) <| by
      simp [HasBareEnds, Option.all_eq_true]

theorem dropWhile_isBlank_append (hbefore : ∀ c ∈ before, isBlank c = true)
    (hhead : ∀ c ∈ cs.head?, isBlank c = false) : (before ++ cs).dropWhile isBlank = cs := by
  rw [List.dropWhile_append_of_pos hbefore]
  cases cs with
  | nil => rfl
  | cons c rest => exact List.dropWhile_cons_of_neg (by simp [hhead c rfl])

/-- Trimming takes away all blanks around what has none at its ends. -/
theorem trimChars_append (hbefore : ∀ c ∈ before, isBlank c = true) (hcs : HasBareEnds cs)
    (hafter : ∀ c ∈ after, isBlank c = true) : trimChars (before ++ cs ++ after) = cs := by
  by_cases hnil : cs = []
  · have hblank : ∀ c ∈ before ++ after, isBlank c = true := by
      simpa [or_imp, forall_and] using And.intro hbefore hafter
    have hdropped : (before ++ after ++ []).dropWhile isBlank = [] :=
      dropWhile_isBlank_append hblank (by simp)
    rw [List.append_nil] at hdropped
    rw [hnil, trimChars, List.append_nil, hdropped]
    rfl
  · obtain ⟨hhead, hlast⟩ := hcs
    have hfront : (before ++ cs ++ after).dropWhile isBlank = cs ++ after := by
      rw [List.append_assoc]
      refine dropWhile_isBlank_append hbefore ?_
      rwa [List.head?_append_of_ne_nil _ hnil]
    rw [trimChars, hfront, List.reverse_append, dropWhile_isBlank_append, List.reverse_reverse]
    · simpa using hafter
    · rwa [List.head?_reverse]

/-- Trimming takes away nothing but blanks, and leaves none at the ends. -/
theorem exists_eq_append_trimChars (cs : List Char) :
    ∃ before after, cs = before ++ trimChars cs ++ after ∧
      (∀ c ∈ before, isBlank c = true) ∧ (∀ c ∈ after, isBlank c = true) ∧
      HasBareEnds (trimChars cs) := by
  have hhead : ∀ cs : List Char, ∀ c ∈ (cs.dropWhile isBlank).head?, isBlank c = false := by
    intro cs c hc
    have hnot := List.head?_dropWhile_not isBlank cs
    rwa [Option.mem_def.mp hc] at hnot
  let front := cs.dropWhile isBlank
  let after := (front.reverse.takeWhile isBlank).reverse
  have hfront : front = trimChars cs ++ after := by
    rw [trimChars, ← List.reverse_append, List.takeWhile_append_dropWhile, List.reverse_reverse]
  refine ⟨cs.takeWhile isBlank, after, ?_, fun c => List.mem_takeWhile_imp, ?_, ?_, ?_⟩
  · rw [List.append_assoc, ← hfront, List.takeWhile_append_dropWhile]
  · intro c hc
    exact List.mem_takeWhile_imp (List.mem_reverse.mp hc)
  · by_cases hnil : trimChars cs = []
    · simp [hnil]
    · have hsame : (trimChars cs ++ after).head? = (trimChars cs).head? :=
        List.head?_append_of_ne_nil _ hnil
      rw [← hfront] at hsame
      rw [← hsame]
      exact hhead cs
  · rw [trimChars, List.getLast?_reverse]
    exact hhead _

theorem isBlankText_iff {text : String} :
    isBlankText text = true ↔ ∀ c ∈ text.toList, isBlank c = true :=
  List.all_eq_true

theorem hasBareEnds_trim (text : String) : HasBareEnds (trim text).toList := by
  obtain ⟨-, -, -, -, -, hbare⟩ := exists_eq_append_trimChars text.toList
  rwa [trim, String.toList_ofList]

theorem exists_eq_append_trim (text : String) :
    ∃ before after, text = before ++ trim text ++ after ∧ isBlankText before = true ∧
      isBlankText after = true := by
  obtain ⟨before, after, heq, hbefore, hafter, -⟩ := exists_eq_append_trimChars text.toList
  refine ⟨String.ofList before, String.ofList after, ?_, ?_, ?_⟩
  · refine String.toList_injective ?_
    simpa [trim] using heq
  · rwa [isBlankText_iff, String.toList_ofList]
  · rwa [isBlankText_iff, String.toList_ofList]

theorem trim_trim (text : String) : trim (trim text) = trim text := by
  have hnone : ∀ c ∈ ([] : List Char), isBlank c = true := by simp
  have hchars := trimChars_append hnone (hasBareEnds_trim text) hnone
  rw [List.nil_append, List.append_nil] at hchars
  rw [trim, hchars, String.ofList_toList]

end Triliteral.Text
