import DataContract.Matching

/-!
# Reading

Which value of a pattern a text is. Structures are read as generic data and then matched, so what
is read is accepted. A union reads with its members in order, null last.
-/

namespace DataContract

namespace Engine

/-- Reads with the first of the members that can, and otherwise gives the error of the last. -/
def parseMembers (e : Engine) (text : String) (r : Resolver) :
    List Pattern → Option ContractError → Outcome (Except (Option ContractError) Value)
  | [], last => .ok (.error last)
  | p :: ps, _ =>
    match e.parse p text r with
    | .ok v => .ok (.ok v)
    | .error err => parseMembers e text r ps (some err)
    | .unfinished => .unfinished

/-- Reads with a union. -/
def parseUnion (e : Engine) (members : List Pattern) (name text : String) (r : Resolver) :
    Outcome Value :=
  match e.parseMembers text r (Pattern.nonNull members) none with
  | .unfinished => .unfinished
  | .error err => .error err
  | .ok (.ok v) => .ok v
  | .ok (.error last) =>
    let failed : Outcome Value :=
      .error (last.getD (.parse text name "no member accepts this text"))
    if Pattern.hasNull members then
      match Scalar.parse .null text with
      | .ok v => .ok v
      | .error _ => failed
    else failed

/-- Reads a value of the kind of an exact value. -/
def readLike (value : Value) (text : String) : Except ContractError Value :=
  match value with
  | .string _ => .ok (.string text)
  | .number _ => (readDecimal text).map .number
  | _ => .ok (.ofText text)

/-- A value that was read from a text, if it is accepted. -/
def accepted (name text : String) (v : Value) (result : MatchResult) : Outcome Value :=
  match result with
  | .success => .ok v
  | .failure f => .error (.parse text name f.report)

/-- Reads an exact value. -/
def parseExact (value : Value) (text : String) : Outcome Value :=
  match readLike value text with
  | .error err => .error err
  | .ok v => accepted value.display text v (checkExact value v)

/-- Reads generic data and matches it. -/
def parseStructured (e : Engine) (p : Pattern) (text : String) (r : Resolver) : Outcome Value :=
  let v := Value.ofText text
  match e.check p v r with
  | none => .unfinished
  | some result => accepted p.typeName text v result

/-- The value of the pattern that the text is. -/
def parseStep (e : Engine) (p : Pattern) (text : String) (r : Resolver) : Outcome Value :=
  match p with
  | .scalar s => .ofExcept (s.parse text)
  | .anything => .ok (.ofText text)
  | .union members _ _ => e.parseUnion members p.typeName text r
  | .enumeration shape => e.parseUnion shape.members p.typeName text r
  | .exact value => parseExact value text
  | .reference name =>
    match r.resolve name with
    | .ok p => e.parse p text r
    | .error err => .error err
  | .lookup _ type => e.parse type text r
  | .inString type => (e.parse type text r).map fun _ => .string text
  | .csv item =>
    match e.checkCsv item (.string text) r with
    | none => .unfinished
    | some result => accepted p.typeName text (.string text) result
  | p => e.parseStructured p text r

end Engine

end DataContract
