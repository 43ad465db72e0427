import DataContract.Combination
import DataContract.Slots
import DataContract.Variants.Example

/-!
# Positive variants

Patterns that together exercise a pattern and stay inside it. A union is split into its members, an
optional key is once there and once not, and a key for which the row has an example is fixed to that
value.

A reference that is already being expanded is kept as it is, which keeps variants of recursive types
finite.
-/

namespace DataContract

/-- Enumerates the positive variants of parts. -/
abbrev VariantSource := Pattern → Row → Resolver → Outcome (LazyList Pattern)

namespace Variants

/-- The first variants of a part, as many as the cap on combinations. -/
def capped (variants : LazyList Pattern) (r : Resolver) : Outcome (List Pattern) :=
  .ofOption (variants.take r.config.maxCombinations).toList?

/-- The candidates for a declared key: the example alone, or the variants of its pattern and, if it
is optional, absence. -/
def keyCandidates (e : Engine) (source : VariantSource) (key : String) (p : Pattern) (row : Row)
    (r : Resolver) : Outcome (List (Option Pattern)) := do
  let name := Key.base key
  match ← e.rowExample name p row r with
  | some given => pure [some given]
  | none => do
    let variants ← capped (← source p (row.stepDown name) r) r
    let absent := if Key.isOptional key then [none] else []
    pure ((variants.map some ++ absent).eraseReps)

/-- The object pattern of a combination of candidates, without the keys that are left out. -/
def objectOf (layout : Layout) (title : Option String)
    (combination : List (String × Option Pattern)) : Pattern :=
  .object layout
    (Fields.ofPairs (combination.filterMap fun (key, p) => p.map (Key.base key, ·))) title

/-- The variants of an object pattern: combinations of the candidates for its keys. -/
def object (e : Engine) (source : VariantSource) (layout : Layout)
    (keys : List (String × Pattern)) (title : Option String) (row : Row) (r : Resolver) :
    Outcome (LazyList Pattern) := do
  let keyed ← Outcome.traverse
    (fun (key, p) => do return (key, ← keyCandidates e source key p row r))
    (Pattern.declaredKeys keys)
  let spec ← .ofExcept (CombinationSpec.ofCandidates keyed r.config.maxCombinations)
  return spec.combinations.map (objectOf layout title)

/-- The candidates for an element of an array: the variants of its pattern; a repetition may also
be left out. -/
def elementCandidates (source : VariantSource) (p : Pattern) (row : Row) (r : Resolver) :
    Outcome (List (Option Pattern)) := do
  match p with
  | .rest element _ => do
    let variants ← capped (← source element row r) r
    pure (variants.map (fun p => some (.restOf p)) ++ [none])
  | p => do
    let variants ← capped (← source p row r) r
    pure (variants.map some)

/-- The variants of an array pattern: fillings of its slots. -/
def array (source : VariantSource) (elements : List Pattern) (row : Row) (r : Resolver) :
    Outcome (LazyList Pattern) := do
  let slots ← Outcome.traverse (fun p => elementCandidates source p row r) elements
  return (LazyList.ofList (Slots.fillings slots)).map .array

/-- The attributes of an element, fixed to the row's examples where it has some. -/
def attributes (e : Engine) (patterns : List (String × Pattern)) (row : Row) (r : Resolver) :
    Outcome (List (String × Pattern)) := do
  let pairs ← Outcome.traverse
    (fun (key, p) => do
      match ← e.rowExample (Key.base key) p row r with
      | some given => pure (Key.base key, given)
      | none => pure (key, p))
    patterns
  return Fields.ofPairs pairs

/-- A variant of a child that is there: one that was optional occurs once. -/
def presentChild (occurrence : Occurrence) (p : Pattern) : Pattern :=
  match p, occurrence with
  | .xml shape, .optional => .xml { shape with occurrence := .once }
  | p, _ => p

/-- The candidates for a child of an element: the variants of its pattern and, unless it occurs
once, absence. -/
def childCandidates (source : VariantSource) (p : Pattern) (row : Row) (r : Resolver) :
    Outcome (List (Option Pattern)) := do
  match p with
  | .xml shape => do
    let variants ← capped (← source p row r) r
    let absent := if shape.occurrence = .once then [] else [none]
    pure (variants.map (fun p => some (presentChild shape.occurrence p)) ++ absent)
  | p => pure [some p]

/-- The slots for the content of an element: one for its text, or one for each child. -/
def contentSlots (e : Engine) (source : VariantSource) (shape : XmlShape Pattern) (row : Row)
    (r : Resolver) : Outcome (List (List (Option Pattern))) := do
  match Pattern.textPattern? shape.children with
  | some p => do
    match ← e.rowExample shape.name p row r with
    | some given => pure [[some given]]
    | none => do
      let variants ← capped (← source p row r) r
      pure [variants.map some]
  | none => Outcome.traverse (fun p => childCandidates source p row r) shape.children

/-- The variants of an element: fillings of the slots of its content. -/
def xmlParts (e : Engine) (source : VariantSource) (shape : XmlShape Pattern) (row : Row)
    (r : Resolver) : Outcome (LazyList Pattern) := do
  let shape ← shape.effective r
  let attributes ← attributes e shape.attributes row r
  let slots ← contentSlots e source shape row r
  return (LazyList.ofList (Slots.fillings slots)).map fun children =>
    .xml { shape with attributes, children, typeRef := none }

/-- The variants of an element, whose type is expanded once. -/
def xml (e : Engine) (source : VariantSource) (shape : XmlShape Pattern) (row : Row)
    (r : Resolver) : Outcome (LazyList Pattern) :=
  match shape.typeRef with
  | none => xmlParts e source shape row r
  | some name =>
    match r.expand name with
    | .error _ => .ok (.singleton (.xml shape))
    | .ok r => xmlParts e source shape row r

/-- The variants of several patterns, one after the other. -/
def members (source : VariantSource) (patterns : List Pattern) (row : Row) (r : Resolver) :
    Outcome (LazyList Pattern) := do
  let lists ← Outcome.traverse (fun p => source p row r) patterns
  return (LazyList.ofList lists).flatMap id

/-- The variant of an encoded pattern: the text of an exact value, or the encoding of a variant. -/
def encode (wrap : Pattern → Pattern) (p : Pattern) : Pattern :=
  match p with
  | .exact v => .exact (.string v.literal)
  | p => wrap p

/-- The positive variants of a pattern, given those of its parts. -/
def step (e : Engine) (source : VariantSource) : VariantSource := fun p row r =>
  match p with
  | .scalar _ => .ok (.singleton p)
  | .anything => .ok (.singleton p)
  | .exact _ => .ok (.singleton p)
  | .object layout keys title => object e source layout keys title row r
  | .array elements => array source elements row r
  | .list element title min =>
    (source element row r).map fun l => l.map fun p => .list p title min
  | .rest element _ => (source element row r).map fun l => l.map .restOf
  | .dictionary key value => (source value row r).map fun l => l.map (.dictionary key)
  | .xml shape => xml e source shape row r
  | .union patterns _ text =>
    match text with
    | some text => (e.parse p text r).map fun v => .singleton (.exact v)
    | none => members source patterns row r
  | .enumeration shape =>
    match shape.inlineExample with
    | some text => (e.parse p text r).map fun v => .singleton (.exact v)
    | none => .ok (.ofList shape.members)
  | .reference name =>
    match r.expand name with
    | .error _ => .ok (.singleton p)
    | .ok r =>
      match r.resolve name with
      | .error err => .error err
      | .ok p => source p row r
  | .lookup key type => do
    match ← e.rowExample key type row r with
    | some given => pure (.singleton given)
    | none => source type row r
  | .inString type => (source type row r).map fun l => l.map (encode .inString)
  | .csv item => (source item row r).map fun l => l.map (encode .csv)

/-- The positive variants on a budget. -/
def ofBudget : Nat → VariantSource
  | 0 => fun _ _ _ => .unfinished
  | n + 1 => fun p row r => step (Engine.ofBudget n) (ofBudget n) p row r

end Variants

namespace Pattern

/-- The positive variants of a pattern for an example row. -/
def variants (p : Pattern) (row : Row) (r : Resolver) : Outcome (LazyList Pattern) :=
  Variants.ofBudget (Engine.budgetFor (p.weight + row.weight + r.weight)) p row r

end Pattern

end DataContract
