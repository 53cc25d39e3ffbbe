import Triliteral.Placeholders

/-!
Patterns: texts in which the placeholder symbols stand for the letters of a root. A
pattern is compiled once into instructions and then rendered for any root.
-/

namespace Triliteral

inductive Instruction where
  | literal (run : List Char)
  | slot (place : Slot)
  deriving DecidableEq, Repr

namespace Instruction

def render (root : Root) : Instruction → List Char
  | .literal run => run
  | .slot place => [root.letter place]

def written (p : Placeholders) : Instruction → List Char
  | .literal run => run
  | .slot place => [p.symbol place]

end Instruction

/-- A compiled pattern beside the text it came from. -/
structure Pattern where
  source : String
  code : List Instruction
  deriving DecidableEq, Repr

namespace Pattern

/-- Puts a character that is no placeholder in front of compiled code, lengthening the
literal that the code begins with, if it begins with one. -/
def consLiteral (c : Char) : List Instruction → List Instruction
  | .literal run :: code => .literal (c :: run) :: code
  | code => .literal [c] :: code

/-- The instructions of a text: each placeholder a slot, each longest run of other
characters one literal. -/
def instructions (p : Placeholders) : List Char → List Instruction
  | [] => []
  | c :: rest =>
    match p.slotOf? c with
    | some place => .slot place :: instructions p rest
    | none => consLiteral c (instructions p rest)

def missing (p : Placeholders) (text : List Char) : List Char :=
  p.symbols.filter fun symbol => !text.contains symbol

def compile (p : Placeholders) (source : String) : Except Fault Pattern :=
  match missing p source.toList with
  | [] => .ok { source, code := instructions p source.toList }
  | absent => .error (.invalidPattern source (String.ofList absent))

def render (pattern : Pattern) (root : Root) : String :=
  String.ofList (pattern.code.flatMap (Instruction.render root))

/-- Compiled code written out again with placeholder symbols. -/
def written (p : Placeholders) (code : List Instruction) : List Char :=
  code.flatMap (Instruction.written p)

theorem written_consLiteral (p : Placeholders) (c : Char) (code : List Instruction) :
    written p (consLiteral c code) = c :: written p code := by
  unfold consLiteral
  split <;> simp [written, Instruction.written]

theorem written_instructions (p : Placeholders) (text : List Char) :
    written p (instructions p text) = text := by
  induction text with
  | nil => rfl
  | cons c rest ih =>
    simp only [instructions]
    split
    · next place h =>
      have : c = p.symbol place := (p.slotOf?_eq_some_iff).mp h
      simpa [written, Instruction.written, this] using ih
    · rw [written_consLiteral, ih]

end Pattern

end Triliteral
