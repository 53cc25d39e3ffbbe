import Triliteral.Scheme.Basic

/-!
The catalog of built-in schemes. Each one is written as a rule over the letters of the root
and named after the word it makes of the root "to do".
-/

namespace Triliteral.Catalog

def entry (name : String) (category : Category) (word : Char → Char → Char → List Char) :
    Scheme where
  name := name
  category := category
  rule := .explicit fun root => String.ofList (word root.first root.second root.third)

/-- The built-in schemes, in the order in which they are taught. -/
def schemes : List Scheme :=
  [entry "فعل" .verb fun a b c => [a, b, c],
    entry "فاعل" .activeParticiple fun a b c => [a, 'ا', b, c],
    entry "مفعول" .passiveParticiple fun a b c => ['م', a, b, 'و', c],
    entry "فعال" .verbalNoun fun a b c => [a, b, 'ا', c],
    entry "تفعيل" .verbalNoun fun a b c => ['ت', a, b, 'ي', c],
    entry "افتعال" .verbalNoun fun a b c => ['ا', a, 'ت', b, 'ا', c],
    entry "فعيل" .intensive fun a b c => [a, b, 'ي', c],
    entry "فعّال" .intensive fun a b c => [a, b, 'ّ', 'ا', c],
    entry "مفعل" .placeNoun fun a b c => ['م', a, b, c],
    entry "مفعال" .instrumentNoun fun a b c => ['م', a, b, 'ا', c]]

def find? (name : String) : Option Scheme :=
  schemes.find? fun scheme => scheme.name == name

end Triliteral.Catalog
