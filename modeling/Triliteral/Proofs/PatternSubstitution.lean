import Triliteral.Proofs.PatternScan
import Triliteral.Proofs.UsableRecords

/-!
A compiled pattern is a substitution: rendering it for a root puts the letters of the root in the
place of the symbols and keeps every other character. A word therefore has as many characters as the
pattern, and fits into the room that was counted when the pattern was compiled.
-/

namespace Triliteral

namespace Placeholders

/-- What a character of a pattern becomes in the word of a root. -/
def substitute (p : Placeholders) (root : Root) (c : Char) : Char :=
  match p.slotOf? c with
  | some place => root.letter place
  | none => c

def root (p : Placeholders) : Root where
  first := p.first
  second := p.second
  third := p.third

theorem letter_root (p : Placeholders) (place : Slot) : p.root.letter place = p.symbol place := by
  cases place <;> rfl

theorem mem_symbols_iff (p : Placeholders) {c : Char} :
    c ∈ p.symbols ↔ ∃ place, c = p.symbol place := by
  simp only [p.symbols_eq_map, List.mem_map, Slot.mem_all, true_and, eq_comm]

theorem slotOf?_eq_none_iff_not_mem (p : Placeholders) {c : Char} :
    p.slotOf? c = none ↔ c ∉ p.symbols := by
  rw [p.slotOf?_eq_none_iff, p.mem_symbols_iff, not_exists]

theorem substitute_symbol (p : Placeholders) (root : Root) (place : Slot) :
    p.substitute root (p.symbol place) = root.letter place := by
  rw [substitute, p.slotOf?_symbol]

theorem substitute_of_not_mem (p : Placeholders) (root : Root) {c : Char} (h : c ∉ p.symbols) :
    p.substitute root c = c := by
  rw [substitute, p.slotOf?_eq_none_iff_not_mem.mpr h]

theorem substitute_root (p : Placeholders) (c : Char) : p.substitute p.root c = c := by
  by_cases h : c ∈ p.symbols
  · obtain ⟨place, rfl⟩ := p.mem_symbols_iff.mp h
    rw [p.substitute_symbol, p.letter_root]
  · exact p.substitute_of_not_mem p.root h

end Placeholders

namespace Pattern

variable {p : Placeholders} {source : String} {pattern : Pattern}

/-! ### Words -/

theorem flatMap_render_consLiteral (root : Root) (c : Char) (code : List Instruction) :
    (consLiteral c code).flatMap (Instruction.render root) =
      c :: code.flatMap (Instruction.render root) := by
  unfold consLiteral
  split <;> simp [Instruction.render]

theorem flatMap_render_instructions (p : Placeholders) (root : Root) (text : List Char) :
    (instructions p text).flatMap (Instruction.render root) = text.map (p.substitute root) := by
  induction text with
  | nil => rfl
  | cons c rest ih =>
      rw [instructions, List.map_cons, Placeholders.substitute]
      cases p.slotOf? c with
      | some place => simp [Instruction.render, ih]
      | none => exact (flatMap_render_consLiteral root c _).trans (congrArg _ ih)

theorem render_of_compile (h : compile p source = .ok pattern) (root : Root) :
    pattern.render root = String.ofList (source.toList.map (p.substitute root)) := by
  obtain ⟨-, rfl⟩ := compile_eq_ok_iff.mp h
  rw [render, flatMap_render_instructions]

theorem toList_render (h : compile p source = .ok pattern) (root : Root) :
    (pattern.render root).toList = source.toList.map (p.substitute root) := by
  rw [render_of_compile h, String.toList_ofList]

theorem render_root (h : compile p source = .ok pattern) : pattern.render p.root = source := by
  have hsame : p.substitute p.root = id := funext p.substitute_root
  rw [render_of_compile h, hsame, List.map_id, String.ofList_toList]

/-! ### Room -/

theorem room_consLiteral (c : Char) (code : List Instruction) :
    room (consLiteral c code) = c.utf8Size + room code := by
  unfold consLiteral
  split <;> simp [room, Instruction.room, String.ofList_cons, Nat.add_assoc]

/-- The room for a word: what the other characters take and four bytes for each symbol. -/
theorem room_instructions (p : Placeholders) (text : List Char) :
    room (instructions p text) =
      (String.ofList (text.filter (· ∉ p.symbols))).utf8ByteSize +
        4 * text.countP (· ∈ p.symbols) := by
  induction text with
  | nil => rfl
  | cons c rest ih =>
      rw [instructions]
      cases hslot : p.slotOf? c with
      | some place =>
          have hsymbol : c ∈ p.symbols := by
            rw [p.mem_symbols_iff]
            exact ⟨place, p.slotOf?_eq_some_iff.mp hslot⟩
          rw [room, ih, List.filter_cons_of_neg (by simpa using hsymbol),
            List.countP_cons_of_pos (by simpa using hsymbol), Instruction.room]
          omega
      | none =>
          have hother : c ∉ p.symbols := p.slotOf?_eq_none_iff_not_mem.mp hslot
          dsimp only
          rw [room_consLiteral, ih, List.filter_cons_of_pos (by simpa using hother),
            List.countP_cons_of_neg (by simpa using hother), String.ofList_cons,
            String.utf8ByteSize_append, String.utf8ByteSize_singleton, Nat.add_assoc]

theorem utf8ByteSize_flatMap_render_le (root : Root) (code : List Instruction) :
    (String.ofList (code.flatMap (Instruction.render root))).utf8ByteSize ≤ room code := by
  induction code with
  | nil => exact Nat.le_refl 0
  | cons head rest ih =>
      have hhead : (String.ofList (head.render root)).utf8ByteSize ≤ head.room := by
        cases head with
        | literal run => exact Nat.le_refl _
        | slot place =>
            rw [Instruction.render, String.ofList_cons, String.utf8ByteSize_append,
              String.utf8ByteSize_singleton]
            exact (root.letter place).utf8Size_le_four
      rw [List.flatMap_cons, String.ofList_append, String.utf8ByteSize_append, room]
      exact Nat.add_le_add hhead ih

/-! ### Compilation -/

theorem exists_compile_iff :
    (∃ pattern, compile p source = .ok pattern) ↔ ∀ place, p.symbol place ∈ source.toList := by
  simp only [compile_eq_ok_iff, exists_and_left, exists_eq, and_true, p.mem_symbols_iff,
    forall_exists_index, forall_eq_apply_imp_iff]

theorem compile_eq_error_iff {fault : Fault} :
    compile p source = .error fault ↔
      (∃ place, p.symbol place ∉ source.toList) ∧
        fault = .invalidPattern source (String.ofList (missing p source.toList)) := by
  rw [← not_forall, ← exists_compile_iff, compile]
  split
  · simp
  · next hne => simp [eq_comm]

/-- A pattern compiles exactly if it has all three symbols, and otherwise the fault names the
pattern and the symbols that it lacks, in the order of their places. The compiled pattern makes of
three letters, whichever they are, the word that has at each place of a symbol the letter of this
symbol and at each other place the character of the pattern. The word takes no more bytes than the
other characters of the pattern and four for each symbol, which is the room that one pass over the
pattern counts. The symbols as letters give the pattern back. -/
theorem compile_substitutes (p : Placeholders) (source : String) :
    (compileByScan p source = (compile p source).map fun pattern => (pattern, pattern.capacity)) ∧
    ((∃ pattern, compile p source = .ok pattern) ↔ ∀ place, p.symbol place ∈ source.toList) ∧
    (∀ fault, compile p source = .error fault ↔
      (∃ place, p.symbol place ∉ source.toList) ∧
        fault = .invalidPattern source (String.ofList (p.symbols.filter (· ∉ source.toList)))) ∧
    ∀ pattern, compile p source = .ok pattern →
      pattern.source = source ∧ pattern.render p.root = source ∧
      pattern.capacity = (String.ofList (source.toList.filter (· ∉ p.symbols))).utf8ByteSize +
        4 * source.toList.countP (· ∈ p.symbols) ∧
      ∀ root,
        (pattern.render root).length = source.length ∧
        (pattern.render root).utf8ByteSize ≤ pattern.capacity ∧
        (∀ (i : Nat) place, source.toList[i]? = some (p.symbol place) →
          (pattern.render root).toList[i]? = some (root.letter place)) ∧
        ∀ (i : Nat) c, source.toList[i]? = some c → c ∉ p.symbols →
          (pattern.render root).toList[i]? = some c := by
  have hmissing : p.symbols.filter (· ∉ source.toList) = missing p source.toList := by
    rw [missing]
    congr 1
    funext c
    rw [List.contains_eq_mem, decide_not]
  refine ⟨compileByScan_eq p source, exists_compile_iff, fun fault => ?_, fun pattern h => ?_⟩
  · rw [hmissing]
    exact compile_eq_error_iff
  · have hword := toList_render h
    refine ⟨source_of_compile h, render_root h, ?_, fun root => ⟨?_, ?_, ?_, ?_⟩⟩
    · obtain ⟨-, rfl⟩ := compile_eq_ok_iff.mp h
      exact room_instructions p source.toList
    · rw [← String.length_toList, hword, List.length_map, String.length_toList]
    · exact utf8ByteSize_flatMap_render_le root pattern.code
    · intro i place hi
      rw [hword, List.getElem?_map, hi, Option.map_some, p.substitute_symbol]
    · intro i c hi hc
      rw [hword, List.getElem?_map, hi, Option.map_some, p.substitute_of_not_mem root hc]

/-- Letters that are symbols themselves, for a pattern with runs at both ends and a slot twice. -/
theorem compile_substitutes_shuffled :
    let pattern : Pattern := ⟨"استفعللة", [.literal ['ا', 'س', 'ت'], .slot .first, .slot .second,
      .slot .third, .slot .third, .literal ['ة']]⟩
    let root : Root := ⟨'ل', 'ف', 'ع'⟩
    compile .standard "استفعللة" = .ok pattern ∧
      pattern.render (Placeholders.standard.root) = "استفعللة" ∧
      (pattern.render root).length = 8 ∧ (pattern.render root).utf8ByteSize ≤ 24 ∧
      (pattern.render root).toList[3]? = some 'ل' ∧ (pattern.render root).toList[6]? = some 'ع' ∧
      (pattern.render root).toList[7]? = some 'ة' := by
  intro pattern root
  obtain ⟨-, -, -, hcompiled⟩ := compile_substitutes .standard "استفعللة"
  have h : compile .standard "استفعللة" = .ok pattern := by decide
  obtain ⟨-, hsource, hcapacity, hroots⟩ := hcompiled pattern h
  obtain ⟨hlength, hsize, hsymbol, hother⟩ := hroots root
  rw [hcapacity] at hsize
  exact ⟨h, hsource, hlength, hsize, hsymbol 3 .first rfl, hsymbol 6 .third rfl,
    hother 7 'ة' rfl (by decide)⟩

end Pattern

end Triliteral
