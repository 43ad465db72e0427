import DataContract.Decimal.Reading
import DataContract.Error
import DataContract.Json.Printer
import DataContract.Json.Reader
import DataContract.Value.Basic

/-!
# Values and JSON

A JSON number becomes the decimal that its text denotes, so that integers and short fractions keep
their exact value; a text whose exponent is out of the decimal range is refused. The other way
round, a decimal is written in normal form and read as a JSON number, which for integers beyond 64
bits and for fractions means the nearest binary number.
-/

namespace DataContract

/-- Reads a decimal; the error quotes the whole text. -/
def readDecimal (text : String) : Except ContractError Decimal :=
  match Decimal.ofText text with
  | .ok d => .ok d
  | .error e => .error (.parse text "number" e.message)

namespace Value

mutual

/-- The value that a JSON value denotes. -/
def ofJson : Json → Except ContractError Value
  | .null => .ok .null
  | .bool b => .ok (.boolean b)
  | .number n => (readDecimal n.text).map .number
  | .string s => .ok (.string s)
  | .array items => (ofJsonItems items).map .array
  | .object members => (ofJsonMembers members).map .object

/-- The values of the elements. -/
def ofJsonItems : List Json → Except ContractError (List Value)
  | [] => .ok []
  | item :: rest =>
    match ofJson item with
    | .error e => .error e
    | .ok v => (ofJsonItems rest).map (v :: ·)

/-- The values of the members, under the same keys. -/
def ofJsonMembers : List (String × Json) → Except ContractError (List (String × Value))
  | [] => .ok []
  | (key, item) :: rest =>
    match ofJson item with
    | .error e => .error e
    | .ok v => (ofJsonMembers rest).map ((key, v) :: ·)

end

/-- The JSON number of a decimal in normal form. -/
def decimalToJson (d : Decimal) : Json :=
  let cs := d.normalize.chars
  match Json.Number.read? cs with
  | some (n, []) => .number n
  | _ => .string (String.ofList cs)

/-- The attributes of an XML node as members. -/
def attributesToJson (attributes : List (String × String)) : List (String × Json) :=
  attributes.map fun a => (a.1, .string a.2)

mutual

/-- The JSON value for a value; an XML node becomes an object with its parts. -/
def toJson : Value → Json
  | .null => .null
  | .boolean b => .bool b
  | .number d => decimalToJson d
  | .string s => .string s
  | .object members => .object (toJsonMembers members)
  | .array items => .array (toJsonItems items)
  | .xml name attributes children =>
    .object [("attributes", .object (attributesToJson attributes)),
      ("children", .array (toJsonItems children)), ("name", .string name)]

/-- The JSON values of the items. -/
def toJsonItems : List Value → List Json
  | [] => []
  | v :: rest => toJson v :: toJsonItems rest

/-- The JSON values of the members. -/
def toJsonMembers : List (String × Value) → List (String × Json)
  | [] => []
  | (key, v) :: rest => (key, toJson v) :: toJsonMembers rest

end

end Value

end DataContract
