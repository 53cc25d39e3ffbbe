import Mathlib.Data.List.Basic
import Triliteral.Pattern.Scan

/-!
The compilation of a pattern in one pass. The instructions of a scan and its pending run, put in
front of what the rest of the pattern compiles to, are what the whole pattern compiles to; what the
scan has met and the room that it counts can be read off its instructions.
-/

namespace Triliteral

namespace Placeholders

theorem symbol_injective (p : Placeholders) : Function.Injective p.symbol := by
  intro a b h
  have hslot := p.slotOf?_symbol a
  rw [h, p.slotOf?_symbol] at hslot
  exact (Option.some.inj hslot).symm

theorem slotOf?_eq_none_iff (p : Placeholders) {c : Char} :
    p.slotOf? c = none ↔ ∀ place, c ≠ p.symbol place := by
  simp only [Option.eq_none_iff_forall_ne_some, ne_eq, p.slotOf?_eq_some_iff]

theorem symbols_eq_map (p : Placeholders) : p.symbols = Slot.all.map p.symbol := rfl

end Placeholders

theorem Slot.mem_all (place : Slot) : place ∈ Slot.all := by
  cases place <;> decide

namespace Pattern

variable {p : Placeholders} {text : List Char} {place : Slot} {code : List Instruction}

/-! ### Runs and slots -/

/-- A run that is put in front of code that begins with no literal becomes one literal. -/
theorem foldr_consLiteral {run : List Char} (hrun : run ≠ [])
    (hcode : ∀ other, code.head? ≠ some (.literal other)) :
    run.foldr consLiteral code = .literal run :: code := by
  induction run with
  | nil => contradiction
  | cons c run ih =>
      rw [List.foldr_cons]
      cases run with
      | cons d run => rw [ih (List.cons_ne_nil d run), consLiteral]
      | nil =>
          cases code with
          | nil => rfl
          | cons head rest =>
              cases head with
              | literal other => exact absurd rfl (hcode other)
              | slot place => rfl

theorem slot_mem_consLiteral {c : Char} :
    .slot place ∈ consLiteral c code ↔ .slot place ∈ code := by
  unfold consLiteral
  split <;> simp

theorem slot_mem_instructions_iff : .slot place ∈ instructions p text ↔ p.symbol place ∈ text := by
  induction text with
  | nil => simp [instructions]
  | cons c rest ih =>
      rw [instructions, List.mem_cons, ← ih]
      cases hslot : p.slotOf? c with
      | some other =>
          obtain rfl := p.slotOf?_eq_some_iff.mp hslot
          simp [p.symbol_injective.eq_iff]
      | none =>
          have hne : p.symbol place ≠ c := (p.slotOf?_eq_none_iff.mp hslot place).symm
          simp [slot_mem_consLiteral, hne]

theorem room_concat (code : List Instruction) (last : Instruction) :
    room (code ++ [last]) = room code + last.room := by
  induction code with
  | nil => simp [room]
  | cons head rest ih => rw [List.cons_append, room, room, ih, Nat.add_assoc]

namespace Scan

variable {scan : Scan}

/-! ### Instructions -/

theorem pending_flush (scan : Scan) : scan.flush.pending = [] := by
  unfold flush
  split
  · next hempty => exact List.isEmpty_iff.mp hempty
  · rfl

theorem code_flush_append (scan : Scan) (hcode : ∀ other, code.head? ≠ some (.literal other)) :
    scan.flush.code ++ code = scan.code ++ scan.pending.foldr consLiteral code := by
  unfold flush
  split
  · next hempty => rw [List.isEmpty_iff.mp hempty, List.foldr_nil]
  · next hpending =>
    rw [foldr_consLiteral (fun h => hpending (List.isEmpty_iff.mpr h)) hcode, List.append_assoc,
      List.singleton_append]

/-- A symbol ends the pending run before its slot, and any other character ends up at the end of the
run, in front of what follows. -/
theorem code_foldl_step (scan : Scan) :
    (text.foldl (step p) scan).flush.code =
      scan.code ++ scan.pending.foldr consLiteral (instructions p text) := by
  induction text generalizing scan with
  | nil =>
      rw [List.foldl_nil, ← List.append_nil scan.flush.code]
      exact scan.code_flush_append fun _ => by simp
  | cons c rest ih =>
      rw [List.foldl_cons, ih, instructions, step]
      cases p.slotOf? c with
      | none => simp only [List.foldr_append, List.foldr_cons, List.foldr_nil]
      | some place =>
          simp only [pushSlot, pending_flush, List.foldr_nil, List.append_assoc,
            List.singleton_append]
          exact scan.code_flush_append fun _ => by simp

theorem code_ofText (p : Placeholders) (text : List Char) :
    (ofText p text).code = instructions p text :=
  code_foldl_step start

/-! ### Flags and room -/

/-- Holds of a scan whose flags and room are those of its instructions. -/
structure Consistent (scan : Scan) : Prop where
  seen_iff : ∀ place, scan.seen place = true ↔ .slot place ∈ scan.code
  capacity_eq : scan.capacity = room scan.code

theorem consistent_start : start.Consistent :=
  ⟨fun _ => by simp [start], rfl⟩

theorem Consistent.flush (h : scan.Consistent) : scan.flush.Consistent := by
  unfold Scan.flush
  split
  · exact h
  · refine ⟨fun place => ?_, ?_⟩
    · simpa using h.seen_iff place
    · rw [room_concat, h.capacity_eq, Instruction.room]

theorem Consistent.pushSlot (h : scan.Consistent) (place : Slot) :
    (scan.pushSlot place).Consistent := by
  refine ⟨fun other => ?_, ?_⟩
  · simp [Scan.pushSlot, h.seen_iff other, or_comm]
  · rw [Scan.pushSlot, room_concat, h.capacity_eq, Instruction.room]

theorem Consistent.step (h : scan.Consistent) (p : Placeholders) (c : Char) :
    (scan.step p c).Consistent := by
  unfold Scan.step
  split
  · exact h.flush.pushSlot _
  · exact ⟨h.seen_iff, h.capacity_eq⟩

theorem Consistent.foldl_step (h : scan.Consistent) (p : Placeholders) (text : List Char) :
    (text.foldl (Scan.step p) scan).Consistent := by
  induction text generalizing scan with
  | nil => exact h
  | cons c rest ih => exact ih (h.step p c)

theorem consistent_ofText (p : Placeholders) (text : List Char) : (ofText p text).Consistent :=
  (consistent_start.foldl_step p text).flush

theorem missing_ofText (p : Placeholders) (text : List Char) :
    (ofText p text).missing p = Pattern.missing p text := by
  rw [missing, Pattern.missing, p.symbols_eq_map, List.filter_map]
  congr 2
  funext place
  have hseen : (ofText p text).seen place = text.contains (p.symbol place) := by
    rw [Bool.eq_iff_iff, (consistent_ofText p text).seen_iff, code_ofText,
      slot_mem_instructions_iff, List.contains_iff_mem]
  exact congrArg not hseen

end Scan

/-- One pass over a pattern compiles it, and counts the room that its words need. -/
theorem compileByScan_eq (p : Placeholders) (source : String) :
    compileByScan p source = (compile p source).map fun pattern => (pattern, pattern.capacity) := by
  have hcapacity := (Scan.consistent_ofText p source.toList).capacity_eq
  rw [Scan.code_ofText] at hcapacity
  simp only [compileByScan, compile, Scan.missing_ofText, Scan.code_ofText, hcapacity]
  cases missing p source.toList <;> rfl

end Pattern

end Triliteral
