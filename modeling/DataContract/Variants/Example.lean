import DataContract.Engine.Budget
import DataContract.Row

/-!
# Row examples

The example that a row has for a key, as an exact pattern. A null, a boolean or a number of a JSON
example is taken as it is if the pattern accepts it; any other cell is read. An example that the
pattern does not accept is an error, except in negative mode, where it is skipped. A cell that
stands for nothing is an error in either mode.
-/

namespace DataContract

namespace Engine

/-- The value that the text of the row's cell under a name is; the outer failure is that of a cell
that stands for nothing, the inner one that of a value that does not fit. -/
def readCell (e : Engine) (name : String) (p : Pattern) (row : Row) (r : Resolver) :
    Outcome (Except ContractError Value) :=
  match row.cell name with
  | .error err => .error err
  | .ok text =>
    match e.parse p text r with
    | .ok v => .ok (.ok v)
    | .error err => .ok (.error err)
    | .unfinished => .unfinished

/-- The value of the row's cell under a name, which has one already or is read. -/
def cellValue (e : Engine) (name : String) (p : Pattern) (row : Row) (r : Resolver) :
    Outcome (Except ContractError Value) :=
  match row.typedCell? name with
  | none => e.readCell name p row r
  | some v =>
    match e.check p v r with
    | none => .unfinished
    | some .success => .ok (.ok v)
    | some (.failure _) =>
      if v.isNull then .ok (.error (.parse "null" p.typeName "null is not accepted"))
      else e.readCell name p row r

/-- The row's example under a name as an exact pattern, if there is one. -/
def rowExample (e : Engine) (name : String) (p : Pattern) (row : Row) (r : Resolver) :
    Outcome (Option Pattern) :=
  if !row.hasCell name then .ok none
  else
    match e.cellValue name p row r with
    | .unfinished => .unfinished
    | .error err => .error err
    | .ok (.ok v) => .ok (some (.exact v))
    | .ok (.error err) =>
      if r.negative then .ok none else .error (.invalidExample name err.message)

end Engine

end DataContract
