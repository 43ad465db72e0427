import DataContract.Fields
import DataContract.Json.Number

/-!
# JSON values

The values that JSON text stands for. The members of an object are kept in ascending key order, and
of a repeated key the last member stays.
-/

namespace DataContract

/-- A JSON value. -/
inductive Json where
  | null
  | bool (value : Bool)
  | number (value : Json.Number)
  | string (value : String)
  | array (items : List Json)
  | object (members : List (String × Json))

namespace Json

instance : Inhabited Json := ⟨.null⟩

/-- The number of a small natural number. -/
def ofNat (n : Nat) : Json :=
  .number (.int n)

/-- The object with these members. -/
def ofPairs (pairs : List (String × Json)) : Json :=
  .object (Fields.ofPairs pairs)

/-- The member of an object under a key. -/
def get? : Json → String → Option Json
  | .object members, name => Fields.get? members name
  | _, _ => none

/-- The truth value, if it is one. -/
def bool? : Json → Option Bool
  | .bool b => some b
  | _ => none

/-- The natural number below `2 ^ 64` that an integer stands for. -/
def word? : Json → Option Nat
  | .number (.int n) => if 0 ≤ n && n < UInt64.size then some n.toNat else none
  | _ => none

end Json

end DataContract
