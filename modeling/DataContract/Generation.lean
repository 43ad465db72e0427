import DataContract.Choices
import DataContract.Engine.Budget

/-!
# Generation

Some value of a pattern, given the outcomes of all choices. Facts are preferred wherever a key has
one that its pattern accepts. A reference whose expansion has begun is not expanded again: that is
an error where a value is needed, but optional keys, further elements and other members of a union
are ways around it.
-/

namespace DataContract

/-- Generates values of parts. -/
abbrev Generator := Pattern → Resolver → Choices → Outcome Value

namespace Generation

/-- Whether an optional part is generated. -/
def includesOptional (r : Resolver) (c : Choices) : Bool :=
  match r.config.optionalKeys with
  | .all => true
  | .none => false
  | .random => c.coin

/-- The fact under a name, if the pattern accepts it. -/
def acceptedFact? (e : Engine) (name : String) (p : Pattern) (r : Resolver) :
    Outcome (Option Value) :=
  match r.fact? name with
  | none => .ok none
  | some v =>
    match e.check p v r with
    | none => .unfinished
    | some result => .ok (if result.isSuccess then some v else none)

/-- The member of an object for a declared key, if it gets one. -/
def member (e : Engine) (gen : Generator) (key : String) (p : Pattern) (r : Resolver)
    (c : Choices) : Outcome (Option Value) := do
  match ← acceptedFact? e (Key.base key) p r with
  | some fact => pure (some fact)
  | none =>
    if !Key.isOptional key then do return some (← gen p r (c.part 1))
    else if !includesOptional r (c.part 0) then pure none
    else
      match gen p r (c.part 1) with
      | .ok v => .ok (some v)
      | .error (.recursion _) => .ok none
      | .error err => .error err
      | .unfinished => .unfinished

/-- An object with the declared keys. -/
def object (e : Engine) (gen : Generator) (keys : List (String × Pattern)) (r : Resolver)
    (c : Choices) : Outcome Value := do
  let members ← Outcome.traverse
    (fun ((key, p), i) => do return (Key.base key, ← member e gen key p r (c.part i)))
    (Pattern.declaredKeys keys).zipIdx
  return .object (Fields.ofPairs (members.filterMap fun (name, v) => v.map (name, ·)))

/-- Up to `left` further items after `done` ones; a recursion ends them once there are enough. -/
def items (gen : Generator) (element : Pattern) (min : Nat) (r : Resolver) (c : Choices) :
    Nat → Nat → Outcome (List Value)
  | 0, _ => .ok []
  | left + 1, done =>
    match gen element r (c.part (done + 1)) with
    | .ok v => (items gen element min r c left (done + 1)).map (v :: ·)
    | .error (.recursion name) => if done ≥ min then .ok [] else .error (.recursion name)
    | .error err => .error err
    | .unfinished => .unfinished

/-- A few items, at least `min` of them. -/
def repeated (gen : Generator) (element : Pattern) (min : Nat) (r : Resolver) (c : Choices) :
    Outcome (List Value) :=
  items gen element min r c (c.between min (min + 2)) 0

/-- One value for each pattern. -/
def each (gen : Generator) (patterns : List Pattern) (r : Resolver) (c : Choices) :
    Outcome (List Value) :=
  Outcome.traverse (fun (p, i) => gen p r (c.part i)) patterns.zipIdx

/-- An array with its fixed elements and a few at its end. -/
def array (gen : Generator) (elements : List Pattern) (r : Resolver) (c : Choices) :
    Outcome Value := do
  let (fixed, rest) := Pattern.splitRest elements
  let head ← each gen fixed r (c.part 0)
  let tail ← match rest with
    | none => pure []
    | some (p, min) => repeated gen p min r (c.part 1)
  return .array (head ++ tail)

/-- Up to `left` further members of a dictionary; a recursion in a value ends them. -/
def entries (gen : Generator) (key value : Pattern) (r : Resolver) (c : Choices) :
    Nat → Nat → Outcome (List (String × Value))
  | 0, _ => .ok []
  | left + 1, done =>
    match gen key r ((c.part (done + 1)).part 0) with
    | .error err => .error err
    | .unfinished => .unfinished
    | .ok name =>
      match gen value r ((c.part (done + 1)).part 1) with
      | .ok v => (entries gen key value r c left (done + 1)).map ((name.literal, v) :: ·)
      | .error (.recursion _) => .ok []
      | .error err => .error err
      | .unfinished => .unfinished

/-- A dictionary of one to three members. -/
def dictionary (gen : Generator) (key value : Pattern) (r : Resolver) (c : Choices) :
    Outcome Value :=
  (entries gen key value r c (c.between 1 3) 0).map fun pairs => .object (Fields.ofPairs pairs)

/-- The attributes of a node. -/
def attributes (gen : Generator) (patterns : List (String × Pattern)) (r : Resolver)
    (c : Choices) : Outcome (List (String × String)) := do
  let chosen := patterns.zipIdx.filter fun ((key, _), i) =>
    !Key.isOptional key || includesOptional r ((c.part i).part 0)
  let pairs ← Outcome.traverse
    (fun ((key, p), i) => do
      return (Key.base key, (← gen p r ((c.part i).part 1)).literal))
    chosen
  return Fields.ofPairs pairs

/-- Up to `left` further nodes of one element; a recursion ends them where none is needed. -/
def nodes (gen : Generator) (shape : XmlShape Pattern) (r : Resolver) (c : Choices) :
    Nat → Outcome (List Value)
  | 0 => .ok []
  | left + 1 =>
    match gen (.xml shape) r (c.part (left + 1)) with
    | .ok v => (nodes gen shape r c left).map (v :: ·)
    | .error (.recursion name) =>
      if shape.occurrence = .once then .error (.recursion name) else .ok []
    | .error err => .error err
    | .unfinished => .unfinished

/-- The nodes of one element at its place. -/
def occurrences (gen : Generator) (shape : XmlShape Pattern) (r : Resolver) (c : Choices) :
    Outcome (List Value) :=
  let count := match shape.occurrence with
    | .once => 1
    | .optional => if includesOptional r (c.part 0) then 1 else 0
    | .multiple => (c.part 0).between 1 2
  nodes gen shape r c count

/-- The content of a node: its text, or the nodes of its elements. -/
def content (gen : Generator) (children : List Pattern) (r : Resolver) (c : Choices) :
    Outcome (List Value) :=
  match Pattern.textPattern? children with
  | some p => do return [.string (← gen p r c).literal]
  | none => do
    let runs ← Outcome.traverse
      (fun (p, i) =>
        match p with
        | .xml shape => occurrences gen shape r (c.part i)
        | _ => .ok [])
      children.zipIdx
    return runs.flatten

/-- A node of an element. -/
def xml (gen : Generator) (shape : XmlShape Pattern) (r : Resolver) (c : Choices) :
    Outcome Value := do
  let r ← match shape.typeRef with
    | none => pure r
    | some name => .ofExcept (r.expand name)
  let shape ← shape.effective r
  let attributes ← attributes gen shape.attributes r (c.part 0)
  let children ← content gen shape.children r (c.part 1)
  return .xml shape.name attributes children

/-- A value of the first of the patterns that has one, or the error of the last. -/
def first (gen : Generator) (r : Resolver) (c : Choices) :
    List (Pattern × Nat) → ContractError → Outcome Value
  | [], last => .error last
  | (p, i) :: rest, _ =>
    match gen p r (c.part (i + 1)) with
    | .ok v => .ok v
    | .error err => first gen r c rest err
    | .unfinished => .unfinished

/-- A value of some member that is not null, tried in turn from a random one on; null if there is
no other way. -/
def union (gen : Generator) (members : List Pattern) (r : Resolver) (c : Choices) :
    Outcome Value :=
  let candidates := (Pattern.nonNull members).zipIdx
  if candidates.isEmpty then .ok .null
  else
    let start := c.below candidates.length
    match first gen r c (candidates.drop start ++ candidates.take start) .emptyEnum with
    | .error err => if Pattern.hasNull members then .ok .null else .error err
    | outcome => outcome

/-- A string of one to three items. -/
def csv (gen : Generator) (item : Pattern) (r : Resolver) (c : Choices) : Outcome Value := do
  let values ← each gen (List.replicate (c.between 1 3) item) r (c.part 0)
  return .string (",".intercalate (values.map Value.literal))

/-- Some value of a pattern, given a generator for its parts. -/
def step (e : Engine) (gen : Generator) : Generator := fun p r c =>
  match p with
  | .scalar s => .ok (s.generate c)
  | .anything => .ok (.string (c.word 6))
  | .object _ keys _ => object e gen keys r c
  | .array elements => array gen elements r c
  | .list element _ min => (repeated gen element min r c).map .array
  | .rest element min => (repeated gen element min r c).map .array
  | .dictionary key value => dictionary gen key value r c
  | .xml shape => xml gen shape r c
  | .union members _ text =>
    match text with
    | some text => e.parse p text r
    | none => union gen members r c
  | .enumeration shape =>
    match shape.inlineExample with
    | some text => e.parse p text r
    | none => .ok (shape.literals.getD (c.below shape.literals.length) .null)
  | .exact v => .ok v
  | .reference name => do
    let r ← .ofExcept (r.expand name)
    let p ← .ofExcept (r.resolve name)
    gen p r c
  | .lookup key type => do
    match ← acceptedFact? e key type r with
    | some fact => pure fact
    | none => gen type r c
  | .inString type => do return .string (← gen type r c).literal
  | .csv item => csv gen item r c

/-- The generator on a budget. -/
def ofBudget : Nat → Generator
  | 0 => fun _ _ _ => .unfinished
  | n + 1 => fun p r c => step (Engine.ofBudget n) (ofBudget n) p r c

end Generation

namespace Pattern

/-- Some value of the pattern. -/
def generate (p : Pattern) (r : Resolver) (c : Choices) : Outcome Value :=
  Generation.ofBudget (Engine.budgetFor (p.weight + r.weight)) p r c

/-- Some value of the pattern that the pattern accepts. -/
def generateValid (p : Pattern) (r : Resolver) (c : Choices) : Outcome Value := do
  let v ← p.generate r c
  match p.check v r with
  | none => .unfinished
  | some .success => .ok v
  | some (.failure f) => .error (.parse v.display p.typeName f.report)

end Pattern

end DataContract
