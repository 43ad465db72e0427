import DataContract.Error
import DataContract.Value.Text

/-!
# Example rows

A row holds example data for a pattern: cells under column names and perhaps a JSON example. A cell
that starts with a dollar sign stands for a variable, `$name`, or for a value of a reference,
`$source.key`. Nested data of a JSON example is reached by stepping down into the row of its key.
-/

namespace DataContract

/-- Example data: cells under column names, what their references stand for, and a JSON example. -/
structure Row where
  name : String
  cells : List (String × String)
  bindings : List (String × String)
  references : List (String × List (String × String))
  jsonExample : Option Value

namespace Row

/-- The row without data. -/
def empty : Row := ⟨"", [], [], [], none⟩

instance : Inhabited Row := ⟨empty⟩

/-- The row of these cells. -/
def ofCells (cells : List (String × String)) : Row :=
  { empty with cells }

/-- The row of these columns, which need one value each. -/
def ofColumns (columns values : List String) : Except ContractError Row :=
  if columns.length ≠ values.length then
    .error (.row s!"{columns.length} columns but {values.length} values")
  else .ok (ofCells (columns.zip values))

/-- The value is an object or an array. -/
def isNested : Value → Bool
  | .object _ => true
  | .array _ => true
  | _ => false

/-- The row of a JSON example: the members that are not nested become cells. -/
def ofJsonExample (json : Value) : Row :=
  let cells := match json with
    | .object members =>
      (members.filter fun m => !isNested m.2).map fun m => (m.1, m.2.literal)
    | _ => []
  { empty with cells, jsonExample := some json }

/-- The row under another name. -/
def named (row : Row) (name : String) : Row :=
  { row with name }

/-- The row with other values of variables. -/
def withVariables (row : Row) (bindings : List (String × String)) : Row :=
  { row with bindings }

/-- The row with the values of a reference. -/
def withReference (row : Row) (source : String) (values : List (String × String)) : Row :=
  { row with references := Fields.set row.references source values }

/-- The row has no column and no JSON example. -/
def isEmpty (row : Row) : Bool :=
  row.cells.isEmpty && row.jsonExample.isNone

/-- The column names in order. -/
def columnNames (row : Row) : List String :=
  row.cells.map (·.1)

/-- There is a cell under the name. -/
def hasCell (row : Row) (name : String) : Bool :=
  row.cells.any (·.1 = name)

/-- What a cell stands for. -/
def resolveCell (row : Row) (cell : String) : Except ContractError String :=
  match cell.toList with
  | '$' :: reference =>
    match Text.splitOnce (· = '.') reference with
    | some (source, key) =>
      let source := String.ofList source
      let key := String.ofList key
      match (Fields.get? row.references source).bind (Fields.get? · key) with
      | some text => .ok text
      | none => .error (.row s!"reference {source} has no value for {key}")
    | none =>
      let name := String.ofList reference
      match Fields.get? row.bindings name with
      | some text => .ok text
      | none => .error (.row s!"variable {name} is not defined")
  | _ => .ok cell

/-- What the first cell under a name stands for. -/
def cell (row : Row) (name : String) : Except ContractError String :=
  match row.cells.find? (·.1 = name) with
  | some (_, text) => row.resolveCell text
  | none => .error (.row s!"no column named {name}")

/-- The member of the JSON example under a key. -/
def member? (row : Row) (name : String) : Option Value :=
  match row.jsonExample with
  | some (.object members) => Fields.get? members name
  | _ => none

/-- The null, boolean or number of the JSON example under a key. -/
def typedCell? (row : Row) (name : String) : Option Value :=
  (row.member? name).filter fun
    | .null => true
    | .boolean _ => true
    | .number _ => true
    | _ => false

/-- The object or array of the JSON example under a key. -/
def nestedExample? (row : Row) (key : String) : Option Value :=
  (row.member? key).filter isNested

/-- The row of what is nested under a key, with the same name and variables; without data if
nothing is. -/
def stepDown (row : Row) (key : String) : Row :=
  match row.nestedExample? key with
  | some nested => ((ofJsonExample nested).withVariables row.bindings).named row.name
  | none => empty

/-- The rows hold the same data. -/
def equal (a b : Row) : Bool :=
  a.name == b.name && a.cells == b.cells && a.bindings == b.bindings &&
    a.references == b.references && a.jsonExample == b.jsonExample

instance : BEq Row := ⟨equal⟩

/-- A bound on the lengths of the cells and of what they stand for, and on the JSON example. -/
def weight (row : Row) : Nat :=
  let texts (fields : List (String × String)) : Nat := fields.foldr (fun f n => f.2.length + n) 0
  1 + texts row.cells + texts row.bindings +
    row.references.foldr (fun f n => texts f.2 + n) 0 + (row.jsonExample.map Value.weight).getD 0

end Row

end DataContract
