/-!
The ways in which a request to the engine can be refused, and how each one reads.
-/

namespace Triliteral

inductive Fault where
  | invalidRoot (text : String)
  | duplicateRoot (text : String)
  | rootNotFound (text : String)
  | invalidPattern (pattern : String) (missing : String)
  | invalidSchemeName
  | duplicateScheme (name : String)
  | schemeNotFound (name : String)
  | invalidPlaceholders (text : String)
  | generationFailure (root : String) (scheme : String)
  deriving DecidableEq, Repr

namespace Fault

def message : Fault → String
  | .invalidRoot text => "invalid root '" ++ text ++ "': expected exactly 3 letters"
  | .duplicateRoot text => "root already exists: " ++ text
  | .rootNotFound text => "root not found: " ++ text
  | .invalidPattern pattern missing =>
    "invalid pattern '" ++ pattern ++ "': missing placeholder(s) " ++ missing
  | .invalidSchemeName => "scheme name must not be empty"
  | .duplicateScheme name => "scheme already exists: " ++ name
  | .schemeNotFound name => "scheme not found: " ++ name
  | .invalidPlaceholders text =>
    "invalid placeholders '" ++ text ++ "': expected 3 distinct characters"
  | .generationFailure root scheme =>
    "generation failed for root '" ++ root ++ "' with scheme '" ++ scheme ++ "'"

end Fault

end Triliteral
