import Triliteral.Text.Blank

/-!
Grammatical categories of schemes, with the names by which they are written.
-/

namespace Triliteral

inductive Category where
  | verb
  | activeParticiple
  | passiveParticiple
  | verbalNoun
  | intensive
  | placeNoun
  | instrumentNoun
  | custom
  deriving DecidableEq, Repr

namespace Category

def all : List Category :=
  [.verb, .activeParticiple, .passiveParticiple, .verbalNoun, .intensive, .placeNoun,
    .instrumentNoun, .custom]

def name : Category → String
  | .verb => "verb"
  | .activeParticiple => "active_participle"
  | .passiveParticiple => "passive_participle"
  | .verbalNoun => "verbal_noun"
  | .intensive => "intensive"
  | .placeNoun => "place_noun"
  | .instrumentNoun => "instrument_noun"
  | .custom => "custom"

def ofName? (name : String) : Option Category :=
  all.find? fun category => category.name == name

/-- The form under which a category is looked up when a person typed it: trimmed, in lower
case, with hyphens read as underscores. -/
def normalize (text : String) : String :=
  String.ofList ((Text.trimChars text.toList).map fun c =>
    if c = '-' then '_' else c.toLower)

def ofText? (text : String) : Option Category :=
  ofName? (normalize text)

theorem ofName?_name (category : Category) : ofName? category.name = some category := by
  cases category <;> decide

end Category

end Triliteral
