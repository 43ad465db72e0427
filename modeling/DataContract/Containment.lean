import DataContract.Containment.Xml
import DataContract.Scalar.Containment

/-!
# Containment

When every value that one pattern accepts is accepted by another, given an engine for the parts.
The contained side is taken apart first: a reference is followed, a lookup is its type, and a union
is contained in a pattern that is no union if every member is.

Recursive types are compared with a stack of the pairs of named types whose comparison has begun. A
pair that comes up again inside its own comparison is taken to succeed, which is what the greatest
such relation does.
-/

namespace DataContract

namespace Engine

/-- The pattern deals with unions on the contained side itself. -/
def takesUnions : Pattern → Bool
  | .union .. => true
  | .enumeration _ => true
  | .reference _ => true
  | .lookup .. => true
  | .anything => true
  | _ => false

/-- The pattern is a union or an enumeration. -/
def isUnion : Pattern → Bool
  | .union .. => true
  | .enumeration _ => true
  | _ => false

/-- What a scalar contains: scalars and exact values. -/
def encompassesScalar (s : Scalar) (other : Pattern) : MatchResult :=
  match other with
  | .scalar t => s.encompasses t
  | .exact v => s.check v
  | .anything => .fail s!"Expected {s.typeName}, but the other side accepts anything"
  | other => otherKind s.typeName other

/-- An exact pattern contains itself alone. -/
def encompassesExact (value : Value) (other : Pattern) : MatchResult :=
  match other with
  | .exact v => checkExact value v
  | other => otherKind value.display other

/-- How a union reports that no member contains the other pattern. -/
def unionGap (members : List Pattern) (name : String) (attempts : List MatchResult)
    (other : Pattern) : MatchResult :=
  match attempts with
  | [only] => only
  | _ =>
    if Pattern.allExact members then otherKind name other
    else .all ((members.zip attempts).map fun a => a.2.under a.1.branchCrumb)

/-- A union contains another pattern if each member of that is contained in some member. -/
def encompassesUnion (e : Engine) (members : List Pattern) (name : String) (other : Pattern)
    (mine theirs : Resolver) (stack : TypeStack) : Option MatchResult := do
  let results ← traverse?
    (fun member => do
      let attempts ← traverse? (fun p => e.encompasses p member mine theirs stack) members
      if attempts.any MatchResult.isSuccess then return .success
      let gap := unionGap members name attempts member
      return if isUnion other then gap.under member.branchCrumb else gap)
    other.unionMembers
  return .all results

/-- The registered name that a pattern stands for. -/
def identity? : Pattern → Option String
  | .reference name => some name
  | .object _ _ title => title
  | _ => none

/-- The pattern of a reference on the contained side; anything else is itself. -/
def resolved (p : Pattern) (r : Resolver) : Except ContractError Pattern :=
  match p with
  | .reference name => r.resolve name
  | p => .ok p

/-- A reference contains what the pattern it stands for contains. -/
def encompassesReference (e : Engine) (name : String) (other : Pattern) (mine theirs : Resolver)
    (stack : TypeStack) : Option MatchResult :=
  let compare (stack : TypeStack) : Option MatchResult :=
    match mine.resolve name with
    | .error (.recursion _) => some .success
    | .error err => some (.fail err.message)
    | .ok bigger =>
      match resolved other theirs with
      | .error (.recursion _) => some .success
      | .error err => some (.fail err.message)
      | .ok smaller => e.encompasses bigger smaller mine theirs stack
  match identity? other with
  | none => compare stack
  | some theirName =>
    if stack.contains (name, theirName) then some .success
    else compare ((name, theirName) :: stack)

/-- What a string-encoded pattern contains: those of contained types, and exact values. -/
def encompassesInString (e : Engine) (type : Pattern) (other : Pattern) (mine theirs : Resolver)
    (stack : TypeStack) : Option MatchResult :=
  match other with
  | .inString theirType => e.encompasses type theirType mine theirs stack
  | .exact v => e.checkInString type v mine
  | other => some (otherKind (Pattern.inString type).typeName other)

/-- What a comma-separated pattern contains: those of contained items, and exact values. -/
def encompassesCsv (e : Engine) (item : Pattern) (other : Pattern) (mine theirs : Resolver)
    (stack : TypeStack) : Option MatchResult :=
  match other with
  | .csv theirItem => e.encompasses item theirItem mine theirs stack
  | .exact v => e.checkCsv item v mine
  | other => some (otherKind (Pattern.csv item).typeName other)

/-- Containment by the kind of the containing pattern. -/
def encompassesByKind (e : Engine) (p other : Pattern) (mine theirs : Resolver)
    (stack : TypeStack) : Option MatchResult :=
  match p with
  | .anything => some .success
  | .scalar s => some (encompassesScalar s other)
  | .exact v => some (encompassesExact v other)
  | .reference name => e.encompassesReference name other mine theirs stack
  | .lookup _ type => e.encompasses type other mine theirs stack
  | .union members _ _ => e.encompassesUnion members p.typeName other mine theirs stack
  | .enumeration shape =>
    e.encompassesUnion shape.members
      (Pattern.union shape.members shape.title shape.inlineExample).typeName other mine theirs stack
  | .object _ keys title => e.encompassesObject keys title other mine theirs stack
  | .array elements => e.encompassesArray elements other mine theirs stack
  | .list element _ _ => e.encompassesRepeated element other mine theirs stack
  | .rest element _ => e.encompassesRepeated element other mine theirs stack
  | .dictionary key value => e.encompassesDictionary key value other mine theirs stack
  | .xml shape => e.encompassesXml shape other mine theirs stack
  | .inString type => e.encompassesInString type other mine theirs stack
  | .csv item => e.encompassesCsv item other mine theirs stack

/-- A pattern that is no union contains a union if it contains every member. -/
def encompassesMembers (e : Engine) (p other : Pattern) (mine theirs : Resolver)
    (stack : TypeStack) : Option MatchResult := do
  let results ← traverse?
    (fun member => (e.encompasses p member mine theirs stack).map (·.under member.branchCrumb))
    other.unionMembers
  return .all results

/-- The first pattern contains the second. -/
def encompassesStep (e : Engine) (p other : Pattern) (mine theirs : Resolver) (stack : TypeStack) :
    Option MatchResult :=
  match p, other with
  | .reference _, .reference _ => e.encompassesByKind p other mine theirs stack
  | p, .reference name =>
    match theirs.resolve name with
    | .ok smaller => e.encompasses p smaller mine theirs stack
    | .error (.recursion _) => some .success
    | .error err => some (.fail err.message)
  | p, .lookup _ type => e.encompasses p type mine theirs stack
  | p, other =>
    if isUnion other && !takesUnions p then e.encompassesMembers p other mine theirs stack
    else e.encompassesByKind p other mine theirs stack

end Engine

end DataContract
