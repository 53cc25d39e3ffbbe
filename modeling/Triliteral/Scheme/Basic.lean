import Triliteral.Pattern
import Triliteral.Scheme.Category

/-!
Schemes: named rules that turn a root into a word. The rule is a compiled pattern, in which
case the scheme is dynamic, or any function of the root.
-/

namespace Triliteral

inductive Rule where
  | explicit (word : Root → String)
  | compiled (pattern : Pattern)

namespace Rule

def apply : Rule → Root → String
  | .explicit word, root => word root
  | .compiled pattern, root => pattern.render root

def source? : Rule → Option String
  | .explicit _ => none
  | .compiled pattern => some pattern.source

end Rule

/-- A named rule with its category and the number of new words it has made. -/
structure Scheme where
  name : String
  category : Category
  rule : Rule
  usage : UInt64 := 0

structure SchemeSummary where
  name : String
  dynamic : Bool
  pattern : Option String
  category : Category
  usage : UInt64
  deriving DecidableEq, Repr

namespace Scheme

def explicit (name : String) (category : Category) (word : Root → String) :
    Except Fault Scheme :=
  if Text.isBlankText name then .error .invalidSchemeName
  else .ok { name, category, rule := .explicit word }

/-- A scheme whose rule is compiled from a pattern. The name is checked first. -/
def compiled (p : Placeholders) (name pattern : String) (category : Category) :
    Except Fault Scheme :=
  if Text.isBlankText name then .error .invalidSchemeName
  else do
    let pattern ← Pattern.compile p pattern
    return { name, category, rule := .compiled pattern }

/-- A scheme whose name is its own pattern. -/
def dynamic (p : Placeholders) (name : String) (category : Category) : Except Fault Scheme :=
  compiled p name name category

def isDynamic (scheme : Scheme) : Bool :=
  scheme.rule.source?.isSome

def word (scheme : Scheme) (root : Root) : String :=
  scheme.rule.apply root

def summary (scheme : Scheme) : SchemeSummary where
  name := scheme.name
  dynamic := scheme.isDynamic
  pattern := scheme.rule.source?
  category := scheme.category
  usage := scheme.usage

end Scheme

end Triliteral
