import DataContract.Matching

/-!
# Containment of structures

When every value of one structure is a value of another, given an engine for the parts. An object
pattern contains another one that requires all the keys it requires, with contained values; keys
that only the other one declares are tolerated. An array contains an array element by element. A
repetition contains arrays of any length whose elements it contains.
-/

namespace DataContract

namespace Engine

/-- The failure of a pattern of another kind. -/
def otherKind (name : String) (other : Pattern) : MatchResult :=
  .fail s!"Expected {name}, got {other.typeName}"

/-- The result for one declared key of the containing object pattern. -/
def encompassesKey (e : Engine) (key : String) (p : Pattern) (theirKeys : List (String × Pattern))
    (mine theirs : Resolver) (stack : TypeStack) : Option MatchResult :=
  let name := Key.base key
  match Pattern.keyNamed? theirKeys name with
  | none =>
    if Key.isOptional key then some .success
    else some ((MatchResult.fail (mine.messages.missing name)).under name)
  | some (theirKey, theirPattern) =>
    if Key.isOptional theirKey && !Key.isOptional key then
      some ((MatchResult.fail
        s!"Key named {name} is mandatory, but the other side makes it optional").under name)
    else (e.encompasses p theirPattern mine theirs stack).map (·.under name)

/-- An object pattern contains another one key by key. -/
def encompassesObject (e : Engine) (keys : List (String × Pattern)) (title : Option String)
    (other : Pattern) (mine theirs : Resolver) (stack : TypeStack) : Option MatchResult :=
  match other with
  | .object _ theirKeys _ => do
    let results ← traverse?
      (fun (key, p) => e.encompassesKey key p theirKeys mine theirs stack)
      (Pattern.declaredKeys keys)
    return .all results
  | .exact v => e.checkObject keys title v mine
  | other => some (otherKind (objectName title) other)

/-- A repetition of one pattern contains arrays and lists whose elements the pattern contains. -/
def encompassesRepeated (e : Engine) (element : Pattern) (other : Pattern)
    (mine theirs : Resolver) (stack : TypeStack) : Option MatchResult :=
  match other with
  | .list theirElement _ _ => e.encompasses element theirElement mine theirs stack
  | .rest theirElement _ => e.encompasses element theirElement mine theirs stack
  | .array elements => do
    let results ← traverse?
      (fun (p, i) =>
        let inner := match p with
          | .rest inner _ => inner
          | p => p
        (e.encompasses element inner mine theirs stack).map (·.under (indexCrumb i)))
      elements.zipIdx
    return .all results
  | .exact v =>
    match v with
    | .array items => e.checkItems element items 0 mine
    | v => some (.mismatch "json array" v.display)
  | other => some (otherKind "json array" other)

/-- The patterns that contain the elements of another array: those at the same places, then the
repetition. -/
def encompassesElements (e : Engine) (mine theirs : Resolver) (stack : TypeStack)
    (rest : Option Pattern) : Nat → List Pattern → List Pattern → Option (List MatchResult)
  | _, _, [] => some []
  | i, bigger, theirElement :: theirRest => do
    let result ← match bigger.head?.or rest with
      | some p => e.encompasses p theirElement mine theirs stack
      | none => some (.fail "Unexpected element")
    let later ← encompassesElements e mine theirs stack rest (i + 1) (bigger.drop 1) theirRest
    return result.under (indexCrumb i) :: later

/-- Containment of arrays of matching lengths, each of which is a start and perhaps a repetition. -/
def encompassesElementwise (e : Engine) (fixed theirFixed : List Pattern)
    (rest theirRest : Option (Pattern × Nat)) (mine theirs : Resolver) (stack : TypeStack) :
    Option MatchResult := do
  let head ← encompassesElements e mine theirs stack (rest.map (·.1)) 0 fixed theirFixed
  let tail ← match rest, theirRest with
    | some (p, _), some (q, _) =>
      (e.encompasses p q mine theirs stack).map (·.under (indexCrumb theirFixed.length))
    | _, _ => some .success
  return .all (head ++ [tail])

/-- An array pattern contains another one of the same length, or if it ends in a repetition one
that is at least as long. -/
def encompassesArrays (e : Engine) (elements theirElements : List Pattern)
    (mine theirs : Resolver) (stack : TypeStack) : Option MatchResult :=
  let (fixed, rest) := Pattern.splitRest elements
  let (theirFixed, theirRest) := Pattern.splitRest theirElements
  match rest, theirRest with
  | none, some _ =>
    some (.fail
      s!"A finite array of length {fixed.length} cannot encompass an array of unbounded length")
  | none, none =>
    if fixed.length ≠ theirFixed.length then
      some (.fail
        s!"Expected an array of length {fixed.length}, the other side has length {theirFixed.length}")
    else e.encompassesElementwise fixed theirFixed rest theirRest mine theirs stack
  | some _, _ =>
    if theirFixed.length < fixed.length then
      some (.fail
        s!"Expected at least {fixed.length} elements, the other side can have {theirFixed.length}")
    else e.encompassesElementwise fixed theirFixed rest theirRest mine theirs stack

/-- An array pattern contains a list if it is nothing but a repetition that contains it. -/
def encompassesList (e : Engine) (elements : List Pattern) (other : Pattern)
    (mine theirs : Resolver) (stack : TypeStack) : Option MatchResult :=
  match Pattern.splitRest elements with
  | ([], some (rest, _)) => e.encompassesRepeated rest other mine theirs stack
  | _ => some (.fail "A finite array cannot encompass a list of any length")

/-- What an array pattern contains: arrays, arrays among the exact values, and lists if it is
nothing but a repetition. -/
def encompassesArray (e : Engine) (elements : List Pattern) (other : Pattern)
    (mine theirs : Resolver) (stack : TypeStack) : Option MatchResult :=
  match other with
  | .array theirElements => e.encompassesArrays elements theirElements mine theirs stack
  | .exact v => e.checkArray elements v mine
  | .list .. => e.encompassesList elements other mine theirs stack
  | .rest .. => e.encompassesList elements other mine theirs stack
  | other => some (otherKind "json array" other)

/-- What a dictionary contains: dictionaries with contained keys and values, and objects whose keys
it can read and whose values it contains. -/
def encompassesDictionary (e : Engine) (key value : Pattern) (other : Pattern)
    (mine theirs : Resolver) (stack : TypeStack) : Option MatchResult :=
  match other with
  | .dictionary theirKey theirValue => do
    let ofKey ← e.encompasses key theirKey mine theirs stack
    let ofValue ← e.encompasses value theirValue mine theirs stack
    return .all [ofKey, ofValue]
  | .object _ theirKeys _ => do
    let results ← traverse?
      (fun (theirKey, p) => do
        let name := Key.base theirKey
        let ofKey ← e.checkKey key name mine
        let ofValue ← e.encompasses value p mine theirs stack
        return (MatchResult.all [ofKey, ofValue]).under name)
      (Pattern.declaredKeys theirKeys)
    return .all results
  | .exact v => e.checkDictionary key value v mine
  | other => some (otherKind (Pattern.dictionary key value).typeName other)

end Engine

end DataContract
