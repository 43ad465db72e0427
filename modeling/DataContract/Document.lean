import DataContract.Engine.Budget
import DataContract.Row

/-!
# Contract documents

A contract is a JSON record of named types, a root shape, example rows and facts. Loading it
registers the types under their names, in ascending order, and fails if any shape refers to a type
that is not declared. An object type carries its own name as its title.
-/

namespace DataContract

/-- The parts of a contract document. -/
structure ContractDocument where
  types : List (String × Json)
  root : Json
  examples : List Json
  facts : List (String × Json)

/-- A loaded contract: the pattern of its root and what is registered for it. -/
structure Contract where
  root : Pattern
  resolver : Resolver

namespace ContractDocument

/-- The names of the parts in order. -/
def fieldNames : List String := ["types", "root", "examples", "facts"]

/-- The members of an object part; a part that is missing has none. -/
def members? : Option Json → Option (List (String × Json))
  | none => some []
  | some (.object members) => some members
  | some _ => none

/-- The elements of an array part; a part that is missing has none. -/
def items? : Option Json → Option (List Json)
  | none => some []
  | some (.array items) => some items
  | some _ => none

/-- The document of these parts; only the root has to be there. -/
def ofFieldValues? (values : List (Option Json)) : Option ContractDocument := do
  let part (i : Nat) : Option Json := values.getD i none
  return ⟨← members? (part 0), ← part 1, ← items? (part 2), ← members? (part 3)⟩

/-- Reads a document. -/
def ofText (text : String) : Except ContractError ContractDocument :=
  let read : Option ContractDocument := do
    let record ← Json.RecordText.read? .lastStands fieldNames text
    ofFieldValues? (← record.fieldValues? fieldNames)
  match read with
  | some document => .ok document
  | none => .error (.document (Json.malformed text))

/-- An object type of a JSON shape, with its name as title. -/
def withTitle (name : String) : Pattern → Pattern
  | .object .json keys _ => .object .json keys (some name)
  | p => p

/-- The patterns of the types, under their names in delimited form and in the order of the
document. -/
def typePatterns (document : ContractDocument) :
    Except ContractError (List (String × Pattern)) :=
  document.types.mapM fun (name, shape) => do
    let p ← Shape.denote shape
    return (Name.delimited name, withTitle (Name.delimited name) p)

/-- All names that the patterns refer to are registered. -/
def checkReferences (patterns : List Pattern) (r : Resolver) : Except ContractError Unit :=
  (Pattern.referencesOfAll patterns).forM fun name => (r.getPattern name).map fun _ => ()

/-- Registers the types and checks that nothing is undeclared. -/
def load (document : ContractDocument) : Except ContractError Contract := do
  let types ← document.typePatterns
  let r := types.foldl (fun r (name, p) => r.register name p) Resolver.empty
  let root ← Shape.denote document.root
  checkReferences (types.map (·.2) ++ [root]) r
  let facts ← Value.ofJsonMembers document.facts
  return ⟨root, r.withFacts facts⟩

/-- One row for each example, named by its position. -/
def rows (document : ContractDocument) : Except ContractError (List Row) :=
  document.examples.zipIdx.mapM fun (json, i) => do
    let v ← Value.ofJson json
    return (Row.ofJsonExample v).named s!"example {i + 1}"

end ContractDocument

namespace Contract

/-- The named types that two contracts have in common, by the older one's names, and the root: each
with what the newer one does not accept of the older. -/
def compatibility (newer older : Contract) : List (String × Option MatchResult) :=
  let common := older.resolver.patternNames.filter fun name =>
    (newer.resolver.getPattern name).toOption.isSome
  ("root", newer.root.isCompatibleWith older.root newer.resolver older.resolver) ::
    common.map fun name =>
      let named := Pattern.named name
      (named.typeName, named.isCompatibleWith named newer.resolver older.resolver)

end Contract

end DataContract
