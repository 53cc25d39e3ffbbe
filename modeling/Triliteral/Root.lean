/-!
Roots: words of exactly three letters, ordered by the code points of their letters.
-/

namespace Triliteral

inductive Slot where
  | first
  | second
  | third
  deriving DecidableEq, Repr

namespace Slot

def all : List Slot := [.first, .second, .third]

def index : Slot → Nat
  | .first => 0
  | .second => 1
  | .third => 2

end Slot

/-- Three letters, of any script. A letter is one code point, so that a vowel sign written
above a consonant counts for itself. -/
structure Root where
  first : Char
  second : Char
  third : Char
  deriving DecidableEq, Repr

namespace Root

def letter (root : Root) : Slot → Char
  | .first => root.first
  | .second => root.second
  | .third => root.third

def letters (root : Root) : List Char :=
  [root.first, root.second, root.third]

def text (root : Root) : String :=
  String.ofList root.letters

def ofLetters? : List Char → Option Root
  | [a, b, c] => some ⟨a, b, c⟩
  | _ => none

/-- The root written by a text. Nothing is trimmed. -/
def ofText? (text : String) : Option Root :=
  ofLetters? text.toList

instance : LT Root := ⟨fun a b => a.letters < b.letters⟩

instance (a b : Root) : Decidable (a < b) :=
  inferInstanceAs (Decidable (a.letters < b.letters))

theorem ofText?_text (root : Root) : ofText? root.text = some root := by
  simp [ofText?, text, letters, ofLetters?]

theorem ofText?_eq_some_iff {source : String} {root : Root} :
    ofText? source = some root ↔ source = root.text := by
  constructor
  · intro h
    unfold ofText? ofLetters? at h
    split at h
    · next a b c hc =>
      obtain rfl : (⟨a, b, c⟩ : Root) = root := by simpa using h
      rw [text, letters, ← hc, String.ofList_toList]
    · simp at h
  · rintro rfl
    exact ofText?_text root

theorem text_injective {a b : Root} (h : a.text = b.text) : a = b := by
  have := congrArg ofText? h
  simpa [ofText?_text] using this

end Root

end Triliteral
