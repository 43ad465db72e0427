/-!
# Contract errors

What can be wrong with a contract, its examples or its settings. Data that merely does not match is
no error: that is a match result. Each error is one constructor, and `ContractError.message` is the
one place where errors are put into words.
-/

namespace DataContract

/-- An error of a contract, an example or a setting. -/
inductive ContractError where
  /-- A reference names a pattern that is not registered. -/
  | unknownPattern (name : String)
  /-- The literals of an enumeration are of several kinds. -/
  | mixedEnumTypes (found : String)
  /-- An enumeration has no literal. -/
  | emptyEnum
  /-- A text cannot be read as a value of the expected type. -/
  | parse (text typeName reason : String)
  /-- An example is not accepted by the pattern that it is for. -/
  | invalidExample (key reason : String)
  /-- A lower bound is above its upper bound. -/
  | invalidBounds (lowerName lower upperName upper : String)
  /-- The cap on combinations is zero. -/
  | invalidMaxCombinations (max : Nat)
  /-- A row has no such cell, or a cell that cannot be resolved. -/
  | row (reason : String)
  /-- A token or a shape denotes no pattern. -/
  | token (text reason : String)
  /-- A contract document is malformed. -/
  | document (reason : String)
  /-- A setting cannot be applied. -/
  | config (reason : String)
  /-- A value would have to contain itself. -/
  | recursion (name : String)
deriving DecidableEq, Repr, Inhabited

namespace ContractError

/-- The error in words. -/
def message : ContractError → String
  | .unknownPattern name => s!"unknown pattern {name}"
  | .mixedEnumTypes found => s!"enum values must all be of one type, found {found}"
  | .emptyEnum => "enum must declare at least one value"
  | .parse text typeName reason => s!"\"{text}\" is not a valid {typeName}: {reason}"
  | .invalidExample key reason => s!"example for {key} is invalid: {reason}"
  | .invalidBounds lowerName lower upperName upper =>
    s!"{lowerName} {lower} cannot be greater than {upperName} {upper}"
  | .invalidMaxCombinations max => s!"max combinations must be > 0, got {max}"
  | .row reason => s!"row error: {reason}"
  | .token text reason => s!"could not parse pattern \"{text}\": {reason}"
  | .document reason => s!"invalid contract document: {reason}"
  | .config reason => s!"invalid configuration: {reason}"
  | .recursion name => s!"cannot generate {name}: it recursively contains itself"

end ContractError

end DataContract
