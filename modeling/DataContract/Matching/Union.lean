import DataContract.Engine

/-!
# Matching unions, references and encoded patterns

A union accepts what some member accepts. Its failure is told in one of three ways: the list of
literals if all members are exact, the failure of the only member that is not null, or the failures
of all of these under the names of their branches.

A reference whose aliases run in a circle stands for no pattern at all and accepts everything.
-/

namespace DataContract

namespace Engine

/-- How a union reports that no member accepts the value. -/
def unionFailure (members : List Pattern) (results : List MatchResult) (v : Value) : MatchResult :=
  if Pattern.allExact members then
    .mismatch ("one of " ++ ", ".intercalate (members.map Pattern.typeName)) v.display
  else
    match (members.zip results).filter fun a => !a.1.isNull with
    | [(_, only)] => only
    | failures => .all (failures.map fun a => a.2.under a.1.branchCrumb)

/-- A union accepts what some member accepts. -/
def checkUnion (e : Engine) (members : List Pattern) (v : Value) (r : Resolver) :
    Option MatchResult := do
  let results ← traverse? (fun p => e.check p v r) members
  return if results.any MatchResult.isSuccess then .success else unionFailure members results v

/-- An exact pattern accepts its value. -/
def checkExact (value v : Value) : MatchResult :=
  if value == v then .success else .mismatch value.display v.display

/-- A reference accepts what the pattern it stands for accepts. -/
def checkReference (e : Engine) (name : String) (v : Value) (r : Resolver) : Option MatchResult :=
  match r.resolve name with
  | .ok p => e.check p v r
  | .error (.recursion _) => some .success
  | .error err => some (.fail err.message)

/-- A string-encoded pattern accepts the strings that can be read as its type. -/
def checkInString (e : Engine) (type : Pattern) (v : Value) (r : Resolver) : Option MatchResult :=
  let mismatch := MatchResult.mismatch (Pattern.inString type).typeName v.display
  match v with
  | .string text =>
    match e.parse type text r with
    | .ok _ => some .success
    | .error _ => some mismatch
    | .unfinished => none
  | _ => some mismatch

/-- The items of a text with commas between them, without the blank characters around each; a blank
text has none. -/
def csvItems (text : String) : List String :=
  if Text.isAllBlank text then []
  else (Text.splitAll ',' text.toList).map fun cs => String.ofList (Text.trimChars cs)

/-- A comma-separated pattern accepts the strings whose items can all be read. -/
def checkCsv (e : Engine) (item : Pattern) (v : Value) (r : Resolver) : Option MatchResult :=
  match v with
  | .string text => do
    let results ← traverse?
      (fun (text, i) =>
        match e.parse item text r with
        | .ok _ => some MatchResult.success
        | .error err => some ((MatchResult.fail err.message).under (indexCrumb i))
        | .unfinished => none)
      (csvItems text).zipIdx
    return .all results
  | v => some (.mismatch (Pattern.csv item).typeName v.display)

end Engine

end DataContract
