import DataContract.Engine

/-!
# Matching structures

How objects, arrays and dictionaries accept values, given an engine for their parts. All violations
are collected: at an object first the keys that are not declared, then the declared keys that are
missing, then what is wrong inside the values. Only a wrong array length hides the elements.
-/

namespace DataContract

namespace Engine

/-- Every item is accepted by one pattern; the first one stands at index `start`. -/
def checkItems (e : Engine) (p : Pattern) (items : List Value) (start : Nat) (r : Resolver) :
    Option MatchResult := do
  let results ← traverse?
    (fun (item, i) => (e.check p item r).map (·.under (indexCrumb (i + start)))) items.zipIdx
  return .all results

/-- The keys of a value that a closed object pattern does not declare. -/
def unexpectedKeys (keys : List (String × Pattern)) (members : List (String × Value)) :
    List String :=
  if Pattern.isOpen keys then []
  else (members.map (·.1)).filter fun name => (Pattern.keyNamed? keys name).isNone

/-- The base names of the mandatory keys that a value does not have. -/
def missingKeys (keys : List (String × Pattern)) (members : List (String × Value)) : List String :=
  ((Pattern.declaredKeys keys).filter fun (key, _) =>
    !Key.isOptional key && !Fields.has members (Key.base key)).map fun (key, _) => Key.base key

/-- The declared keys that a value has: base name, pattern and value. -/
def presentKeys (keys : List (String × Pattern)) (members : List (String × Value)) :
    List (String × Pattern × Value) :=
  (Pattern.declaredKeys keys).filterMap fun (key, p) =>
    (Fields.get? members (Key.base key)).map fun v => (Key.base key, p, v)

/-- The name of an object pattern in messages. -/
def objectName (title : Option String) : String :=
  (Pattern.object .json [] title).typeName

/-- An object pattern accepts objects with the mandatory keys, no undeclared keys unless it is
open, and accepted values under the declared keys. -/
def checkObject (e : Engine) (keys : List (String × Pattern)) (title : Option String) (v : Value)
    (r : Resolver) : Option MatchResult :=
  match v with
  | .object members => do
    let unexpected := (unexpectedKeys keys members).map fun name =>
      (MatchResult.fail (r.messages.unexpected name)).under name
    let missing := (missingKeys keys members).map fun name =>
      (MatchResult.fail (r.messages.missing name)).under name
    let values ← traverse? (fun (name, p, v) => (e.check p v r).map (·.under name))
      (presentKeys keys members)
    return .all (unexpected ++ missing ++ values)
  | v => some (.mismatch (objectName title) v.display)

/-- The results for the items that stand at the places of patterns. -/
def checkElements (e : Engine) (elements : List Pattern) (items : List Value) (r : Resolver) :
    Option (List MatchResult) :=
  traverse?
    (fun ((p, item), i) => (e.check p item r).map (·.under (indexCrumb i)))
    (elements.zip items).zipIdx

/-- An array pattern accepts arrays with one accepted element for each pattern and, if it ends in a
repetition, enough further elements. -/
def checkArray (e : Engine) (elements : List Pattern) (v : Value) (r : Resolver) :
    Option MatchResult :=
  match v with
  | .array items =>
    let (fixed, rest) := Pattern.splitRest elements
    match rest with
    | none =>
      if items.length ≠ fixed.length then
        some (.fail
          s!"Expected an array of length {fixed.length}, actual length {items.length}")
      else do
        let head ← e.checkElements fixed items r
        return .all (head ++ [.success])
    | some (p, min) =>
      if items.length < fixed.length + min then
        some (.fail
          s!"Expected an array of at least {fixed.length + min} elements, actual length {items.length}")
      else do
        let head ← e.checkElements fixed items r
        let tail ← e.checkItems p (items.drop fixed.length) fixed.length r
        return .all (head ++ [tail])
  | v => some (.mismatch "json array" v.display)

/-- A list accepts arrays of enough accepted elements. -/
def checkList (e : Engine) (element : Pattern) (name : String) (min : Nat) (v : Value)
    (r : Resolver) : Option MatchResult :=
  match v with
  | .array items =>
    if items.length < min then
      some (.fail s!"Expected at least {min} element(s), actual length {items.length}")
    else e.checkItems element items 0 r
  | v => some (.mismatch name v.display)

/-- A text can be read as a value of the pattern; nothing if that is not known. -/
def reads (e : Engine) (p : Pattern) (text : String) (r : Resolver) : Option Bool :=
  match e.parse p text r with
  | .ok _ => some true
  | .error _ => some false
  | .unfinished => none

/-- A key of a dictionary can be read as a value of the key pattern. -/
def checkKey (e : Engine) (key : Pattern) (name : String) (r : Resolver) : Option MatchResult :=
  (e.reads key name r).map fun ok =>
    if ok then .success else .fail s!"Key {name} is not a valid {key.typeName}"

/-- A dictionary accepts objects whose keys can be read and whose values are accepted. -/
def checkDictionary (e : Engine) (key value : Pattern) (v : Value) (r : Resolver) :
    Option MatchResult :=
  match v with
  | .object members => do
    let results ← traverse?
      (fun (name, v) => do
        return (MatchResult.all [← e.checkKey key name r, ← e.check value v r]).under name)
      members
    return .all results
  | v => some (.mismatch (Pattern.dictionary key value).typeName v.display)

end Engine

end DataContract
