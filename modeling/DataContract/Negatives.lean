import DataContract.Engine.Budget
import DataContract.NegativePolicy

/-!
# Negative variants

Patterns whose values a pattern rejects: scalars of the other families, and structures with one part
corrupted. A union has the negatives of its members that no member contains. A reference that is
already being expanded has none.
-/

namespace DataContract

/-- Enumerates the negative variants of parts. -/
abbrev NegativeSource := Pattern → Row → Resolver → LazyList Pattern

namespace Negatives

/-- The scalars that are not of a family. -/
def ofFamily : Family → List Pattern
  | .number => [.null, .boolean, .string]
  | .boolean => [.null, .number, .string]
  | .string => [.null, .number, .boolean]
  | _ => []

/-- The negative is a scalar or an exact value, which a union has only once. -/
def isSimple : Pattern → Bool
  | .scalar _ => true
  | .exact _ => true
  | _ => false

/-- The pattern is a scalar that travels as a string. -/
def isStringScalar : Pattern → Bool
  | .scalar s => s.family == .string
  | _ => false

/-- The negatives that no member of a union contains, simple ones only once; `seen` holds the simple
ones before. -/
def outside (e : Engine) (members : List Pattern) (r : Resolver) (seen : List Pattern) :
    LazyList Pattern → LazyList Pattern
  | .nil => .nil
  | .stalled => .stalled
  | .cons negative rest =>
    if Pattern.hasNull members && negative.isNull then outside e members r seen (rest ())
    else
      match any? (fun m => (e.encompasses m negative r r []).map MatchResult.isSuccess) members with
      | none => .stalled
      | some true => outside e members r seen (rest ())
      | some false =>
        if isSimple negative then
          if seen.contains negative then outside e members r seen (rest ())
          else .cons negative fun _ => outside e members r (seen ++ [negative]) (rest ())
        else .cons negative fun _ => outside e members r seen (rest ())

/-- The negatives of a union. -/
def union (e : Engine) (source : NegativeSource) (members : List Pattern) (row : Row)
    (r : Resolver) : LazyList Pattern :=
  outside e members r []
    ((LazyList.ofList (Pattern.nonNull members)).flatMap fun p => source p row r)

/-- The negatives of an array: one element corrupted. -/
def array (source : NegativeSource) (elements : List Pattern) (row : Row) (r : Resolver) :
    LazyList Pattern :=
  (LazyList.ofList elements.zipIdx).flatMap fun (p, i) =>
    (source p row r.inNegative).map fun negative => .array (elements.set i negative)

/-- The negatives of the text of an element: what is no text of it. A string could be by chance, so
a fixed word stands for all of them. -/
def text (source : NegativeSource) (p : Pattern) (row : Row) (r : Resolver) : LazyList Pattern :=
  if isStringScalar p then .nil
  else
    ((source p row r).filter (!·.isNull)).map fun negative =>
      match negative with
      | .scalar (.string _) => .exact (.string ("not " ++ p.typeName))
      | negative => negative

/-- The negatives of an element at one of its children: without it if it occurs once, and with it
corrupted. -/
def child (source : NegativeSource) (shape : XmlShape Pattern) (i : Nat) (p : Pattern) (row : Row)
    (r : Resolver) : LazyList Pattern :=
  match p with
  | .xml element =>
    let omitted : List Pattern :=
      if element.occurrence = .once then
        [.xml { shape with children := shape.children.eraseIdx i }]
      else []
    (LazyList.ofList omitted).append fun _ =>
      (source p row r).map fun negative =>
        .xml { shape with children := shape.children.set i negative }
  | _ => .nil

/-- The negatives of an element: without a mandatory attribute, with other text, and with a child
omitted or corrupted. -/
def xmlParts (source : NegativeSource) (shape : XmlShape Pattern) (row : Row) (r : Resolver) :
    LazyList Pattern :=
  match shape.effective r with
  | .unfinished => .stalled
  | .error _ => .nil
  | .ok shape =>
    let shape := { shape with typeRef := none }
    let omitted := (shape.attributes.filter fun (key, _) => !Key.isOptional key).map fun (key, _) =>
      Pattern.xml { shape with attributes := Fields.remove shape.attributes key }
    (LazyList.ofList omitted).append fun _ =>
      match Pattern.textPattern? shape.children with
      | some p =>
        (text source p row r).map fun negative => .xml { shape with children := [negative] }
      | none =>
        (LazyList.ofList shape.children.zipIdx).flatMap fun (p, i) => child source shape i p row r

/-- The negatives of an element, whose type is expanded once. -/
def xml (source : NegativeSource) (shape : XmlShape Pattern) (row : Row) (r : Resolver) :
    LazyList Pattern :=
  match shape.typeRef with
  | none => xmlParts source shape row r.inNegative
  | some name =>
    match r.inNegative.expand name with
    | .error _ => .nil
    | .ok r => xmlParts source shape row r

/-- The negative variants of a pattern, given those of its parts. -/
def step (e : Engine) (source : NegativeSource) : NegativeSource := fun p row r =>
  match p with
  | .scalar s => .ofList (ofFamily s.family)
  | .anything => .nil
  | .exact v => .ofList (ofFamily (Family.ofValue v))
  | .object layout keys title =>
    (r.config.negativePolicy.corruptions source (Pattern.declaredKeys keys) row r.inNegative).map
      fun keys => .object layout keys title
  | .array elements => array source elements row r
  | .list element _ _ =>
    (LazyList.ofList [.null, .number, .boolean, .string]).append fun _ =>
      (source element row r.inNegative).map fun p => .list p none 1
  | .rest element _ => (source element row r.inNegative).map fun p => .rest p 1
  | .dictionary key value => (source value row r.inNegative).map (.dictionary key)
  | .xml shape => xml source shape row r
  | .union members _ _ => union e source members row r
  | .enumeration shape =>
    .ofList ((ofFamily shape.family).filter fun p => !(shape.nullable && p.isNull))
  | .reference name =>
    match r.expand name with
    | .error _ => .nil
    | .ok r =>
      match r.resolve name with
      | .error _ => .nil
      | .ok p => source p row r
  | .lookup _ type => source type row r
  | .inString type =>
    (LazyList.ofList (ofFamily .string)).append fun _ =>
      ((source type row r).filter fun p => !p.isNull && !isStringScalar p).map .inString
  | .csv _ => .ofList (ofFamily .string)

/-- The negative variants on a budget. -/
def ofBudget : Nat → NegativeSource
  | 0 => fun _ _ _ => .stalled
  | n + 1 => fun p row r => step (Engine.ofBudget n) (ofBudget n) p row r

end Negatives

namespace Pattern

/-- The negative variants of a pattern for an example row. -/
def negatives (p : Pattern) (row : Row) (r : Resolver) : LazyList Pattern :=
  Negatives.ofBudget (Engine.budgetFor (p.weight + row.weight + r.weight)) p row r

end Pattern

namespace NegativePolicy

/-- The declared keys with one of them corrupted in each way that the policy keeps. -/
def negatives (policy : NegativePolicy) (keys : List (String × Pattern)) (row : Row)
    (r : Resolver) : LazyList (List (String × Pattern)) :=
  policy.corruptions
    (Negatives.ofBudget
      (Engine.budgetFor (Pattern.weightOfFields keys + row.weight + r.weight)))
    keys row r

end NegativePolicy

end DataContract
