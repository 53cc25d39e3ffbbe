import Mathlib.Data.List.Nodup
import Mathlib.Tactic.IntervalCases
import Triliteral.Proofs.Trimming
import Triliteral.Settings.Basic

/-!
Placeholders as texts. The texts of placeholders are those of three different characters. Reading
goes through trimming, which is why the text of what was read is read in the same way.
-/

namespace Triliteral.Placeholders

variable {p : Placeholders} {source text : String} {a b c : Char} {fault : Fault}

theorem nodup_symbols (p : Placeholders) : p.symbols.Nodup := by
  simp [symbols, p.first_ne_second, p.second_ne_third, p.first_ne_third]

theorem toList_text (p : Placeholders) : p.text.toList = p.symbols :=
  String.toList_ofList

theorem exists_text_eq_iff : (∃ p : Placeholders, p.text = text) ↔
    text.length = 3 ∧ text.toList.Nodup := by
  rw [← String.length_toList]
  constructor
  · rintro ⟨p, rfl⟩
    rw [toList_text]
    exact ⟨rfl, p.nodup_symbols⟩
  · rintro ⟨hlength, hnodup⟩
    obtain ⟨a, b, c, habc⟩ := List.length_eq_three.mp hlength
    rw [habc] at hnodup
    obtain ⟨⟨hab, hac⟩, hbc⟩ : (a ≠ b ∧ a ≠ c) ∧ b ≠ c := by
      simpa using hnodup
    refine ⟨⟨a, b, c, hab, hbc, hac⟩, String.toList_injective ?_⟩
    rw [toList_text, habc]
    rfl

/-! ### Reading -/

theorem ofSymbols_eq_ok_iff : ofSymbols a b c = .ok p ↔ p.symbols = [a, b, c] := by
  unfold ofSymbols
  constructor
  · intro h
    split at h
    · obtain rfl := Except.ok.inj h
      rfl
    · cases h
  · intro h
    obtain ⟨first, second, third, h₁, h₂, h₃⟩ := p
    obtain ⟨rfl, rfl, rfl⟩ : first = a ∧ second = b ∧ third = c := by
      simpa [symbols] using h
    rw [dif_pos ⟨h₁, h₂, h₃⟩]

theorem ofText_eq_ok_iff : ofText source = .ok p ↔ p.text = Text.trim source := by
  have htext : p.text = Text.trim source ↔ p.symbols = Text.trimChars source.toList :=
    String.ofList_inj
  rw [htext, ofText]
  split
  · next a b c habc => rw [habc, ofSymbols_eq_ok_iff]
  · next hshort =>
    refine iff_of_false (by rintro ⟨⟩) fun h => ?_
    exact hshort _ _ _ h.symm

theorem ofSymbols_eq_error_iff : ofSymbols a b c = .error fault ↔
    ¬ [a, b, c].Nodup ∧ fault = .invalidPlaceholders (String.ofList [a, b, c]) := by
  have hnodup : [a, b, c].Nodup ↔ a ≠ b ∧ b ≠ c ∧ a ≠ c := by
    simp only [List.nodup_cons, List.mem_cons, List.not_mem_nil]
    tauto
  rw [ofSymbols, hnodup]
  split
  · next hdistinct => exact iff_of_false (by rintro ⟨⟩) fun h => h.1 hdistinct
  · next hrepeated =>
    rw [Except.error.injEq, eq_comm]
    exact (and_iff_right hrepeated).symm

/-- A text of another length is told as it was given, and repeated symbols by themselves. -/
theorem ofText_eq_error_iff : ofText source = .error fault ↔
    (Text.trim source).length ≠ 3 ∧ fault = .invalidPlaceholders source ∨
      (Text.trim source).length = 3 ∧ ¬ (Text.trim source).toList.Nodup ∧
        fault = .invalidPlaceholders (Text.trim source) := by
  have hchars : (Text.trim source).toList = Text.trimChars source.toList := String.toList_ofList
  rw [ofText, ← String.length_toList, hchars]
  split
  · next a b c habc =>
    rw [ofSymbols_eq_error_iff, Text.trim, habc]
    simp
  · next hshort =>
    have hlength : (Text.trimChars source.toList).length ≠ 3 := by
      intro h
      obtain ⟨a, b, c, habc⟩ := List.length_eq_three.mp h
      exact hshort a b c habc
    rw [Except.error.injEq, eq_comm]
    simp [hlength]

theorem ofText_text_of_ofText (h : ofText source = .ok p) : ofText p.text = .ok p := by
  rw [ofText_eq_ok_iff, ofText_eq_ok_iff.mp h, Text.trim_trim]

/-! ### Places of symbols -/

theorem getElem?_symbols (p : Placeholders) (slot : Slot) :
    p.symbols[slot.index]? = some (p.symbol slot) := by
  cases slot <;> rfl

theorem index_slotOf?_eq_some_iff {i : Nat} :
    (p.slotOf? c).map Slot.index = some i ↔ p.symbols[i]? = some c := by
  simp only [Option.map_eq_some_iff, slotOf?_eq_some_iff]
  constructor
  · rintro ⟨slot, rfl, rfl⟩
    exact p.getElem?_symbols slot
  · intro h
    have hi : i < 3 := (List.getElem?_eq_some_iff.mp h).1
    obtain ⟨slot, rfl⟩ : ∃ slot : Slot, slot.index = i := by
      interval_cases i
      exacts [⟨.first, rfl⟩, ⟨.second, rfl⟩, ⟨.third, rfl⟩]
    rw [getElem?_symbols] at h
    exact ⟨slot, (Option.some.inj h).symm, rfl⟩

/-- Placeholders are read from the text between the blanks at both ends: exactly if it has three
characters, no two alike, a blank between two others among them. They are written as this text,
which is read again as the same placeholders, also from settings that keep it; and a character marks
a place exactly if it stands there. If there are not three characters the fault tells the whole
text, and if some are alike it tells the three. -/
theorem ofText_reads_trimmed (source : String) :
    ((∃ before after, source = before ++ Text.trim source ++ after ∧
        Text.isBlankText before = true ∧ Text.isBlankText after = true) ∧
      Text.HasBareEnds (Text.trim source).toList) ∧
    ((∃ p, ofText source = .ok p) ↔
      (Text.trim source).length = 3 ∧ (Text.trim source).toList.Nodup) ∧
    (∀ p, ofText source = .ok p →
      p.text = Text.trim source ∧ ofText p.text = .ok p ∧
      (∀ settings : Settings, { settings with placeholders := p.text }.parsedPlaceholders = .ok p) ∧
      ∀ c i, (p.slotOf? c).map Slot.index = some i ↔ (Text.trim source).toList[i]? = some c) ∧
    ∀ fault, ofText source = .error fault ↔
      (Text.trim source).length ≠ 3 ∧ fault = .invalidPlaceholders source ∨
        (Text.trim source).length = 3 ∧ ¬ (Text.trim source).toList.Nodup ∧
          fault = .invalidPlaceholders (Text.trim source) := by
  refine ⟨⟨Text.exists_eq_append_trim source, Text.hasBareEnds_trim source⟩, ?_, fun p h => ?_,
    fun fault => ofText_eq_error_iff⟩
  · simp only [ofText_eq_ok_iff]
    exact exists_text_eq_iff
  · have htext := ofText_eq_ok_iff.mp h
    have hagain := ofText_text_of_ofText h
    refine ⟨htext, hagain, fun settings => ?_, fun c i => ?_⟩
    · rw [Settings.parsedPlaceholders, hagain]
      rfl
    · rw [index_slotOf?_eq_some_iff, ← htext, toList_text]

/-- Placeholders around a blank, read from a text with an em space before them and a line feed
behind. -/
theorem ofText_reads_trimmed_blank :
    let p : Placeholders := ⟨'ف', ' ', 'ل', by decide, by decide, by decide⟩
    ofText "\u2003ف ل\n" = .ok p ∧ p.text = "ف ل" ∧ ofText "ف ل" = .ok p ∧
      (p.slotOf? ' ').map Slot.index = some 1 ∧
      ofText "\u2003ف\n" = .error (.invalidPlaceholders "\u2003ف\n") ∧
      ofText "\u2003ففل\n" = .error (.invalidPlaceholders "ففل") := by
  intro p
  have hread : ofText "\u2003ف ل\n" = .ok p := by decide
  have htrimmed : Text.trim "\u2003ف ل\n" = "ف ل" := by decide
  obtain ⟨-, -, hread', -⟩ := ofText_reads_trimmed "\u2003ف ل\n"
  obtain ⟨htext, hagain, -, hplaces⟩ := hread' p hread
  rw [htrimmed] at htext hplaces
  obtain ⟨-, -, -, hshort⟩ := ofText_reads_trimmed "\u2003ف\n"
  obtain ⟨-, -, -, hrepeated⟩ := ofText_reads_trimmed "\u2003ففل\n"
  exact ⟨hread, htext, htext ▸ hagain, (hplaces ' ' 1).mpr (by decide),
    (hshort _).mpr (.inl ⟨by decide, rfl⟩),
    (hrepeated _).mpr (.inr ⟨by decide, by decide, by decide⟩)⟩

end Triliteral.Placeholders
