import Triliteral.Pattern

/-!
Compiling in one pass. A scan reads a pattern from left to right and keeps the literal run that it
is in, the symbols that it has met and the room that a word will need.
-/

namespace Triliteral

/-- The bytes to set aside for what a step contributes to a word: a literal run as long as it is, a
slot as the longest letter. -/
def Instruction.room : Instruction → Nat
  | .literal run => (String.ofList run).utf8ByteSize
  | .slot _ => 4

namespace Pattern

def room : List Instruction → Nat
  | [] => 0
  | head :: rest => head.room + room rest

def capacity (pattern : Pattern) : Nat :=
  room pattern.code

/-- What is known after a part of a pattern: the instructions so far, the literal run that is not
among them yet, the places whose symbols were met, and the room for the instructions. -/
structure Scan where
  code : List Instruction
  pending : List Char
  seen : Slot → Bool
  capacity : Nat

namespace Scan

def start : Scan where
  code := []
  pending := []
  seen := fun _ => false
  capacity := 0

def flush (scan : Scan) : Scan :=
  if scan.pending.isEmpty then scan
  else
    { scan with
      code := scan.code ++ [.literal scan.pending]
      pending := []
      capacity := scan.capacity + (String.ofList scan.pending).utf8ByteSize }

def pushSlot (place : Slot) (scan : Scan) : Scan :=
  { scan with
    code := scan.code ++ [.slot place]
    seen := fun other => other = place || scan.seen other
    capacity := scan.capacity + 4 }

/-- Reads one character. A symbol ends the pending run; any other character lengthens it. -/
def step (p : Placeholders) (scan : Scan) (c : Char) : Scan :=
  match p.slotOf? c with
  | some place => scan.flush.pushSlot place
  | none => { scan with pending := scan.pending ++ [c] }

def ofText (p : Placeholders) (text : List Char) : Scan :=
  (text.foldl (step p) start).flush

def missing (p : Placeholders) (scan : Scan) : List Char :=
  (Slot.all.filter fun place => !scan.seen place).map p.symbol

end Scan

/-- Compiles a pattern by one scan and tells the room that its words need. -/
def compileByScan (p : Placeholders) (source : String) : Except Fault (Pattern × Nat) :=
  let scan := Scan.ofText p source.toList
  match scan.missing p with
  | [] => .ok ({ source, code := scan.code }, scan.capacity)
  | absent => .error (.invalidPattern source (String.ofList absent))

end Pattern

end Triliteral
