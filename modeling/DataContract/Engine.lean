import DataContract.MatchResult
import DataContract.Outcome
import DataContract.Resolver

/-!
# The engine

Three questions about patterns ask each other: whether a value is accepted, what value a text is,
and whether one pattern contains another. Matching a dictionary reads its keys; reading a structure
matches it; comparing with an exact value matches that value; and in mock mode matching a token
compares patterns.

An `Engine` answers all three. The modules on matching, reading and containment say how an answer
about a pattern follows from answers about its parts, given an engine for the parts. Tied together
they are one step, and `n` steps from an engine without answers is the engine with budget `n`.
-/

namespace DataContract

/-- Answers to the questions about patterns, as far as a budget lets it. -/
structure Engine where
  /-- Does the pattern accept the value? -/
  check : Pattern → Value → Resolver → Option MatchResult
  /-- Which value of the pattern is the text? -/
  parse : Pattern → String → Resolver → Outcome Value
  /-- Does the first pattern, under the first resolver, accept all that the second one accepts
  under the second resolver? -/
  encompasses : Pattern → Pattern → Resolver → Resolver → TypeStack → Option MatchResult

namespace Engine

/-- The engine without answers. -/
def exhausted : Engine :=
  ⟨fun _ _ _ => none, fun _ _ _ => .unfinished, fun _ _ _ _ _ => none⟩

instance : Inhabited Engine := ⟨exhausted⟩

end Engine

/-- The breadcrumb of an index. -/
def indexCrumb (i : Nat) : String :=
  s!"[{i}]"

namespace Pattern

/-- The keys of an object pattern without the one that admits undeclared keys. -/
def declaredKeys (keys : List (String × Pattern)) : List (String × Pattern) :=
  keys.filter (·.1 != ellipsis)

/-- The object pattern admits undeclared keys. -/
def isOpen (keys : List (String × Pattern)) : Bool :=
  Fields.has keys ellipsis

/-- The declared key with the given base name and its pattern, the mandatory one before the
optional one. -/
def keyNamed? (keys : List (String × Pattern)) (name : String) : Option (String × Pattern) :=
  match Fields.get? keys name with
  | some p => some (name, p)
  | none => (Fields.get? keys (Key.optional name)).map fun p => (Key.optional name, p)

/-- The elements before a repetition at the end, and the repetition. -/
def splitRest : List Pattern → List Pattern × Option (Pattern × Nat)
  | [] => ([], none)
  | [.rest p min] => ([], some (p, min))
  | p :: ps => ((p :: (splitRest ps).1), (splitRest ps).2)

/-- The pattern of the text of an XML element, if its children describe text. -/
def textPattern? : List Pattern → Option Pattern
  | [.xml _] => none
  | [.anything] => none
  | [p] => some p
  | _ => none

end Pattern

namespace XmlShape

/-- The element with the attributes and children of the types it refers to, for at most the given
number of types; the name and the occurrence stay, and it may be nil if any of them may. -/
def expand (r : Resolver) : Nat → XmlShape Pattern → Outcome (XmlShape Pattern)
  | 0, _ => .unfinished
  | steps + 1, shape =>
    match shape.typeRef with
    | none => .ok shape
    | some name =>
      match r.resolve name with
      | .error e => .error e
      | .ok (.xml base) =>
        (expand r steps base).map fun base =>
          { shape with
            attributes := base.attributes
            children := base.children
            nillable := shape.nillable || base.nillable
            typeRef := none }
      | .ok other =>
        .error (.document s!"xml type {name} must be an xml node, found {other.typeName}")

/-- The element with the attributes and children of the types it refers to. -/
def effective (r : Resolver) (shape : XmlShape Pattern) : Outcome (XmlShape Pattern) :=
  expand r (r.registry.length + 2) shape

end XmlShape

end DataContract
