import DataContract.Containment.Structure

/-!
# Containment of XML elements

An element pattern contains another one of the same name that occurs no more often, with contained
attributes and, place by place, contained children. Two elements that refer to named types are
compared once: while the comparison of the types goes on, the same comparison inside it is taken to
succeed.
-/

namespace DataContract

namespace Engine

/-- The result for one declared attribute of the containing element. -/
def encompassesAttribute (e : Engine) (key : String) (p : Pattern)
    (theirAttributes : List (String × Pattern)) (mine theirs : Resolver) (stack : TypeStack) :
    Option MatchResult :=
  let name := Key.base key
  let result : Option MatchResult :=
    match Pattern.keyNamed? theirAttributes name with
    | none =>
      if Key.isOptional key then some .success
      else some (.fail (mine.messages.missing name))
    | some (theirKey, theirPattern) =>
      if Key.isOptional theirKey && !Key.isOptional key then
        some (.fail s!"Attribute {name} is mandatory, but the other side makes it optional")
      else e.encompasses p theirPattern mine theirs stack
  result.map (·.under (attributeCrumb name))

/-- The breadcrumb of a child pattern. -/
def childCrumb : Pattern → String
  | .xml shape => shape.name
  | _ => "(text)"

/-- The attributes and children of an element contain those of another. -/
def encompassesParts (e : Engine) (bigger smaller : XmlShape Pattern) (mine theirs : Resolver)
    (stack : TypeStack) : Option MatchResult := do
  let attributes ← traverse?
    (fun (key, p) => e.encompassesAttribute key p smaller.attributes mine theirs stack)
    bigger.attributes
  let children ←
    if bigger.children.length ≠ smaller.children.length then
      some (MatchResult.fail
        s!"Expected {bigger.children.length} children in {bigger.name}, the other side has {smaller.children.length}")
    else do
      let results ← traverse?
        (fun (b, s) => (e.encompasses b s mine theirs stack).map (·.under (childCrumb b)))
        (bigger.children.zip smaller.children)
      pure (MatchResult.all results)
  return .all (attributes ++ [children])

/-- The pair of the types that two elements refer to. -/
def typePair? (bigger smaller : XmlShape Pattern) : Option (String × String) :=
  match bigger.typeRef, smaller.typeRef with
  | some a, some b => some (a, b)
  | _, _ => none

/-- An element contains another one with the attributes and children of their types. -/
def encompassesElement (e : Engine) (bigger smaller : XmlShape Pattern) (mine theirs : Resolver)
    (stack : TypeStack) : Option MatchResult :=
  match bigger.effective mine, smaller.effective theirs with
  | .ok b, .ok s => e.encompassesParts b s mine theirs stack
  | .unfinished, _ => none
  | _, .unfinished => none
  | .error err, _ => some (.fail err.message)
  | _, .error err => some (.fail err.message)

/-- What an element pattern contains: elements and nodes among the exact values. -/
def encompassesXml (e : Engine) (bigger : XmlShape Pattern) (other : Pattern)
    (mine theirs : Resolver) (stack : TypeStack) : Option MatchResult :=
  match other with
  | .xml smaller =>
    if bigger.name ≠ smaller.name then
      some (.fail s!"Expected node named {bigger.name}, the other side has {smaller.name}")
    else if smaller.occurrence.exceeds bigger.occurrence then
      some (.fail
        s!"Node {bigger.name} occurs {bigger.occurrence.name} here but {smaller.occurrence.name} on the other side")
    else
      match typePair? bigger smaller with
      | none => e.encompassesElement bigger smaller mine theirs stack
      | some pair =>
        if stack.contains pair then some .success
        else e.encompassesElement bigger smaller mine theirs (pair :: stack)
  | .exact v => e.checkXml bigger v mine
  | other => some (otherKind (Pattern.xml bigger).typeName other)

end Engine

end DataContract
