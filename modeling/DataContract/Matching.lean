import DataContract.Matching.Union
import DataContract.Matching.Xml
import DataContract.Pattern.Shape
import DataContract.Scalar.Matching

/-!
# Matching

Which values a pattern accepts, given an engine for its parts. In mock mode a string that is a
token stands for all values of the pattern that it denotes: it is accepted where that pattern is
contained.
-/

namespace DataContract

namespace Engine

/-- The pattern that a value stands for in mock mode. -/
def mockPattern? (v : Value) (r : Resolver) : Option Pattern :=
  match v with
  | .string text =>
    if r.config.mockMode && Name.isToken text then (Pattern.ofText text).toOption else none
  | _ => none

/-- The pattern accepts the value itself. -/
def checkValue (e : Engine) (p : Pattern) (v : Value) (r : Resolver) : Option MatchResult :=
  match p with
  | .scalar s => some (s.check v)
  | .anything => some .success
  | .object _ keys title => e.checkObject keys title v r
  | .array elements => e.checkArray elements v r
  | .list element _ min => e.checkList element p.typeName min v r
  | .rest element min => e.checkList element p.typeName min v r
  | .dictionary key value => e.checkDictionary key value v r
  | .xml shape => e.checkXml shape v r
  | .union members _ _ => e.checkUnion members v r
  | .enumeration shape => e.checkUnion shape.members v r
  | .exact value => some (checkExact value v)
  | .reference name => e.checkReference name v r
  | .lookup _ type => e.check type v r
  | .inString type => e.checkInString type v r
  | .csv item => e.checkCsv item v r

/-- The pattern accepts the value, or in mock mode what the value stands for. -/
def checkStep (e : Engine) (p : Pattern) (v : Value) (r : Resolver) : Option MatchResult :=
  match mockPattern? v r with
  | some token => e.encompasses p token r r []
  | none => e.checkValue p v r

end Engine

end DataContract
