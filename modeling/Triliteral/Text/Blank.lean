/-!
Blank characters and trimming. A character is blank exactly when Unicode gives it the
property `White_Space`; trimming removes blanks at both ends and nothing else.
-/

namespace Triliteral.Text

/-- The inclusive code point ranges of the property `White_Space`. -/
def blankRanges : List (Nat × Nat) :=
  [(0x09, 0x0D), (0x20, 0x20), (0x85, 0x85), (0xA0, 0xA0), (0x1680, 0x1680),
    (0x2000, 0x200A), (0x2028, 0x2029), (0x202F, 0x202F), (0x205F, 0x205F), (0x3000, 0x3000)]

def isBlank (c : Char) : Bool :=
  blankRanges.any fun range => range.1 ≤ c.toNat && c.toNat ≤ range.2

def trimChars (cs : List Char) : List Char :=
  ((cs.dropWhile isBlank).reverse.dropWhile isBlank).reverse

def trim (text : String) : String :=
  String.ofList (trimChars text.toList)

/-- Holds of a text that has no character but blanks, the empty text included. -/
def isBlankText (text : String) : Bool :=
  text.toList.all isBlank

def reversed (text : String) : String :=
  String.ofList text.toList.reverse

end Triliteral.Text
