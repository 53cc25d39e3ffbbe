import Mathlib.Data.List.Chain
import Triliteral.Proofs.PatternSubstitution

/-!
The normal form of compiled code. Compiling a text and writing code out are inverse to each other,
between the texts that have all symbols and the code in normal form.
-/

namespace Triliteral

namespace Instruction

def isLiteral : Instruction → Bool
  | .literal _ => true
  | .slot _ => false

/-- Holds of a slot, and of a literal that has characters but no symbols. -/
def Plain (p : Placeholders) : Instruction → Prop
  | .literal run => run ≠ [] ∧ ∀ c ∈ run, c ∉ p.symbols
  | .slot _ => True

instance (p : Placeholders) : DecidablePred (Plain p)
  -- over the characters of the run, never over all characters
  | .literal run => @instDecidableAnd (run ≠ []) (∀ c ∈ run, c ∉ p.symbols) inferInstance
      (List.decidableBAll (fun c => c ∉ p.symbols) run)
  | .slot _ => .isTrue trivial

end Instruction

namespace Pattern

variable {p : Placeholders} {code : List Instruction}

/-- Holds of code whose literals are the longest runs between slots. -/
structure Grouped (p : Placeholders) (code : List Instruction) : Prop where
  plain : ∀ step ∈ code, step.Plain p
  separated : code.IsChain fun a b => ¬ (a.isLiteral ∧ b.isLiteral)

structure Normal (p : Placeholders) (code : List Instruction) : Prop where
  grouped : Grouped p code
  complete : ∀ place, .slot place ∈ code

theorem normal_iff : Normal p code ↔
    ((∀ step ∈ code, step.Plain p) ∧ code.IsChain fun a b => ¬ (a.isLiteral ∧ b.isLiteral)) ∧
      ∀ place ∈ Slot.all, .slot place ∈ code :=
  ⟨fun ⟨⟨hplain, hseparated⟩, hcomplete⟩ => ⟨⟨hplain, hseparated⟩, fun place _ => hcomplete place⟩,
    fun ⟨⟨hplain, hseparated⟩, hcomplete⟩ =>
      ⟨⟨hplain, hseparated⟩, fun place => hcomplete place place.mem_all⟩⟩

instance : Decidable (Normal p code) :=
  decidable_of_iff' _ normal_iff

/-! ### Compiled code is in normal form -/

theorem grouped_nil : Grouped p [] :=
  ⟨fun _ h => absurd h List.not_mem_nil, .nil⟩

theorem Grouped.tail {head : Instruction} (h : Grouped p (head :: code)) : Grouped p code :=
  ⟨fun step hstep => h.plain step (List.mem_cons_of_mem head hstep), h.separated.tail⟩

theorem Grouped.consSlot (h : Grouped p code) (place : Slot) : Grouped p (.slot place :: code) := by
  refine ⟨fun step hstep => ?_, List.isChain_cons.mpr ⟨?_, h.separated⟩⟩
  · rcases List.mem_cons.mp hstep with rfl | hstep
    · trivial
    · exact h.plain step hstep
  · simp [Instruction.isLiteral]

theorem Grouped.consLiteral (h : Grouped p code) {c : Char} (hc : c ∉ p.symbols) :
    Grouped p (consLiteral c code) := by
  have hsingle : Instruction.Plain p (.literal [c]) := by
    simpa [Instruction.Plain] using hc
  unfold Pattern.consLiteral
  split
  · next run rest =>
    obtain ⟨-, hrun⟩ : Instruction.Plain p (.literal run) := h.plain _ List.mem_cons_self
    refine ⟨fun step hstep => ?_, ?_⟩
    · rcases List.mem_cons.mp hstep with rfl | hstep
      · exact ⟨List.cons_ne_nil c run, List.forall_mem_cons.mpr ⟨hc, hrun⟩⟩
      · exact h.plain step (List.mem_cons_of_mem _ hstep)
    · exact List.isChain_cons.mpr (List.isChain_cons.mp h.separated)
  · next hcode =>
    refine ⟨List.forall_mem_cons.mpr ⟨hsingle, h.plain⟩, List.isChain_cons.mpr ⟨?_, h.separated⟩⟩
    intro next hnext
    cases next with
    | slot place => simp [Instruction.isLiteral]
    | literal run =>
        obtain ⟨rest, rfl⟩ := List.head?_eq_some_iff.mp hnext
        exact absurd rfl (hcode run rest)

theorem grouped_instructions (p : Placeholders) (text : List Char) :
    Grouped p (instructions p text) := by
  induction text with
  | nil => exact grouped_nil
  | cons c rest ih =>
      rw [instructions]
      split
      · exact ih.consSlot _
      · next hslot => exact ih.consLiteral (p.slotOf?_eq_none_iff_not_mem.mp hslot)

/-! ### Code in normal form is compiled -/

theorem instructions_append_plain {run : List Char} (hrun : ∀ c ∈ run, c ∉ p.symbols)
    (text : List Char) :
    instructions p (run ++ text) = run.foldr consLiteral (instructions p text) := by
  induction run with
  | nil => rfl
  | cons c run ih =>
      obtain ⟨hc, hrun⟩ := List.forall_mem_cons.mp hrun
      rw [List.cons_append, instructions, p.slotOf?_eq_none_iff_not_mem.mpr hc, List.foldr_cons,
        ih hrun]

theorem written_cons (p : Placeholders) (head : Instruction) (code : List Instruction) :
    written p (head :: code) = head.written p ++ written p code :=
  List.flatMap_cons

/-- The text of grouped code compiles to this code: its literals are the runs that a compilation
finds. -/
theorem instructions_written (h : Grouped p code) : instructions p (written p code) = code := by
  induction code with
  | nil => rfl
  | cons head rest ih =>
      rw [written_cons]
      cases head with
      | slot place =>
          rw [Instruction.written, List.singleton_append, instructions, p.slotOf?_symbol]
          exact congrArg _ (ih h.tail)
      | literal run =>
          obtain ⟨hne, hplain⟩ : Instruction.Plain p (.literal run) :=
            h.plain _ List.mem_cons_self
          rw [Instruction.written, instructions_append_plain hplain, ih h.tail]
          refine foldr_consLiteral hne fun other hother => ?_
          exact (List.isChain_cons.mp h.separated).1 _ hother ⟨rfl, rfl⟩

/-- For any symbols, compilation and writing out are inverse bijections. A pattern that compiles
gives code in normal form: each literal has characters, no literal has symbols or is next to another
one, and every slot occurs; written out, the code is the pattern again. Any code in normal form is
what its text compiles to. So two patterns have the same code only if they are the same. -/
theorem compile_normal_bijective (p : Placeholders) :
    (∀ source pattern, compile p source = .ok pattern →
      Normal p pattern.code ∧ String.ofList (written p pattern.code) = source) ∧
    (∀ code, Normal p code →
      compile p (String.ofList (written p code)) = .ok ⟨String.ofList (written p code), code⟩) ∧
    ∀ source source' pattern pattern', compile p source = .ok pattern →
      compile p source' = .ok pattern' → (pattern.code = pattern'.code ↔ source = source') := by
  have hwritten : ∀ source pattern, compile p source = .ok pattern →
      String.ofList (written p pattern.code) = source := by
    intro source pattern h
    obtain ⟨-, rfl⟩ := compile_eq_ok_iff.mp h
    rw [written_instructions, String.ofList_toList]
  refine ⟨fun source pattern h => ⟨?_, hwritten source pattern h⟩, fun code hcode => ?_, ?_⟩
  · obtain ⟨hsymbols, rfl⟩ := compile_eq_ok_iff.mp h
    refine ⟨grouped_instructions p source.toList, fun place => slot_mem_instructions_iff.mpr ?_⟩
    exact hsymbols _ (p.mem_symbols_iff.mpr ⟨place, rfl⟩)
  · have hcompiled := instructions_written hcode.grouped
    refine compile_eq_ok_iff.mpr ⟨fun symbol hsymbol => ?_, ?_⟩
    · obtain ⟨place, rfl⟩ := p.mem_symbols_iff.mp hsymbol
      rw [String.toList_ofList, ← slot_mem_instructions_iff, hcompiled]
      exact hcode.complete place
    · rw [String.toList_ofList, hcompiled]
  · intro source source' pattern pattern' h h'
    constructor
    · intro hsame
      rw [← hwritten source pattern h, hsame, hwritten source' pattern' h']
    · rintro rfl
      rw [Except.ok.inj (h.symm.trans h')]

/-- Code with runs at both ends and between two equal slots, and code without any run. -/
theorem compile_normal_bijective_runs :
    let code : List Instruction := [.literal ['و'], .slot .first, .slot .first,
      .literal ['ت', 'م'], .slot .first, .slot .second, .slot .third, .literal ['ة']]
    let bare : Pattern := ⟨"فعل", [.slot .first, .slot .second, .slot .third]⟩
    Normal .standard code ∧
      compile .standard "وففتمفعلة" = .ok ⟨"وففتمفعلة", code⟩ ∧
      compile .standard "فعل" = .ok bare ∧ Normal .standard bare.code ∧
      String.ofList (written .standard bare.code) = "فعل" ∧
      (code = bare.code ↔ "وففتمفعلة" = "فعل") := by
  intro code bare
  obtain ⟨hcompiled, hnormal, hsame⟩ := compile_normal_bijective .standard
  have hcode : Normal .standard code := by decide
  have hlong : compile .standard "وففتمفعلة" = .ok ⟨"وففتمفعلة", code⟩ := hnormal code hcode
  have hbare : compile .standard "فعل" = .ok bare := by decide
  obtain ⟨hbareNormal, hbareWritten⟩ := hcompiled _ _ hbare
  exact ⟨hcode, hlong, hbare, hbareNormal, hbareWritten, hsame _ _ _ _ hlong hbare⟩

end Pattern

end Triliteral
