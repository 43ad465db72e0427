import DataContract.Pattern.Token

/-!
# JSON shapes

Structures are written as JSON whose string leaves may be tokens; every other leaf denotes exactly
itself. An array with a list token as its only element is that list. An object is the pattern of an
object with these keys unless it has one of the keys `$enum`, `$oneOf`, `$dictionary`, `$csv`,
`$string` and `$number`, of which the first in this order decides what it is.
-/

namespace DataContract

namespace Shape

/-- A bound on a length: absent, null or an integer. -/
def lengthBound (bounds : Json) (name : String) : Except ContractError (Option Nat) :=
  match bounds.get? name with
  | none => .ok none
  | some .null => .ok none
  | some json =>
    match json.word? with
    | some n => .ok (some n)
    | none => .error (.token name "expected a non-negative integer")

/-- A bound on a number: absent, null or a number. -/
def numberBound (bounds : Json) (name : String) : Except ContractError (Option Decimal) :=
  match bounds.get? name with
  | none => .ok none
  | some .null => .ok none
  | some (.number n) => (readDecimal n.text).map some
  | some _ => .error (.token name "expected a number")

/-- The strings within the bounds of a `$string` shape. -/
def stringShape (bounds : Json) : Except ContractError Pattern := do
  let lo ← lengthBound bounds "minLength"
  let hi ← lengthBound bounds "maxLength"
  return .scalar (.string (← LengthRange.bounded lo hi))

/-- The numbers within the bounds of a `$number` shape. -/
def numberShape (bounds : Json) : Except ContractError Pattern := do
  let integer := ((bounds.get? "integer").bind Json.bool?).getD false
  let lo ← numberBound bounds "minimum"
  let hi ← numberBound bounds "maximum"
  return .scalar (.number (← NumberRange.bounded lo hi integer))

/-- The text of an inline example among the members of a shape. -/
def inlineExample (members : List (String × Json)) : Except ContractError (Option String) :=
  match Fields.get? members "example" with
  | none => .ok none
  | some json => (Value.ofJson json).map fun v => some v.literal

/-- The literals of an `$enum` shape. -/
def enumShape (values : Json) (members : List (String × Json)) : Except ContractError Pattern :=
  match values with
  | .array items => do
    let values ← Value.ofJsonItems items
    let marked := ((Fields.get? members "nullable").bind Json.bool?).getD false
    let e ← Enumeration.ofValues values (marked || values.any (·.isNull))
    return .enumeration { e with inlineExample := ← inlineExample members }
  | _ => .error (.token "$enum" "expected an array of values")

/-- The pattern of an array shape with these elements. -/
def arrayOf : List Pattern → Pattern
  | [.list element title minItems] => .list element title minItems
  | elements => .array elements

mutual

/-- The pattern that a shape denotes. -/
def denote : Json → Except ContractError Pattern
  | .string s =>
    if Name.isToken s then Token.parse s else .ok (.exact (.string s))
  | .null => .ok .null
  | .array items => (denoteItems items).map arrayOf
  | .object members =>
    match Fields.get? members "$enum" with
    | some values => enumShape values members
    | none =>
    match denoteArrayUnder "$oneOf" members with
    | some none => .error (.token "$oneOf" "expected an array of shapes")
    | some (some (_, options)) => do
      let options ← options
      return .union options none (← inlineExample members)
    | none =>
    match denoteArrayUnder "$dictionary" members with
    | some (some (2, .error e)) => .error e
    | some (some (_, .ok [key, value])) => .ok (.dictionary key value)
    | some _ => .error (.token "$dictionary" "expected [keyShape, valueShape]")
    | none =>
    match denoteUnder "$csv" members with
    | some item => item.map .csv
    | none =>
    match Fields.get? members "$string" with
    | some bounds => stringShape bounds
    | none =>
    match Fields.get? members "$number" with
    | some bounds => numberShape bounds
    | none => (denoteMembers members).map fun keys => .object .json keys none
  | json => (Value.ofJson json).map .exact

/-- The patterns that several shapes denote. -/
def denoteItems : List Json → Except ContractError (List Pattern)
  | [] => .ok []
  | item :: rest =>
    match denote item with
    | .error e => .error e
    | .ok p => (denoteItems rest).map (p :: ·)

/-- The patterns of the members, under the same keys. -/
def denoteMembers : List (String × Json) → Except ContractError (List (String × Pattern))
  | [] => .ok []
  | (key, item) :: rest =>
    match denote item with
    | .error e => .error e
    | .ok p => (denoteMembers rest).map ((key, p) :: ·)

/-- The pattern of the member under a key, if there is one. -/
def denoteUnder (key : String) : List (String × Json) → Option (Except ContractError Pattern)
  | [] => none
  | (k, item) :: rest => if k = key then some (denote item) else denoteUnder key rest

/-- The array under a key: absent, not an array, or its length and the patterns. -/
def denoteArrayUnder (key : String) :
    List (String × Json) → Option (Option (Nat × Except ContractError (List Pattern)))
  | [] => none
  | (k, .array items) :: rest =>
    if k = key then some (some (items.length, denoteItems items)) else denoteArrayUnder key rest
  | (k, _) :: rest => if k = key then some none else denoteArrayUnder key rest

end

end Shape

namespace Pattern

/-- The pattern that a text denotes: a token, a JSON shape, or the text itself. -/
def ofText (text : String) : Except ContractError Pattern :=
  let trimmed := Text.trim text
  if Name.isToken trimmed then Token.parse trimmed
  else if Value.looksStructured trimmed.toList then
    match Json.read? trimmed with
    | some json => Shape.denote json
    | none => .error (.token trimmed (Json.malformed trimmed))
  else .ok (.exact (.string text))

/-- The object pattern of rows of a key and a text; of a repeated key the last row stays. -/
def ofTokenRows (rows : List (String × String)) : Except ContractError Pattern := do
  let keys ← rows.foldlM (fun keys (key, text) => do return Fields.set keys key (← ofText text)) []
  return .object .tabular keys none

end Pattern

end DataContract
