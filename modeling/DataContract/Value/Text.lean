import DataContract.Value.Json

/-!
# The text of a value

`Value.display` is the text that messages quote: strings in quotes, structures as compact JSON, XML
nodes as markup. `Value.literal` is the text of a value inside another text, such as an item of a
comma-separated list: there a string stands for itself and null is empty.

`Value.ofText` goes the other way for generic data: a text that is a JSON object or array becomes
that structure, and every other text stays a string.
-/

namespace DataContract

namespace Value

/-- The attributes of a node, as they stand in its opening tag. -/
def displayAttributes (attributes : List (String × String)) : String :=
  String.join (attributes.map fun a => s!" {a.1}=\"{a.2}\"")

mutual

/-- The text that messages quote. -/
def display : Value → String
  | .null => "null"
  | .boolean true => "true"
  | .boolean false => "false"
  | .number d => d.normalize.text
  | .string s => "\"" ++ s ++ "\""
  | .object members => (toJson (.object members)).compact
  | .array items => (toJson (.array items)).compact
  | .xml name attributes children =>
    let tag := "<" ++ name ++ displayAttributes attributes
    match children with
    | [] => tag ++ "/>"
    | c :: cs => tag ++ ">" ++ displayChildren (c :: cs) ++ "</" ++ name ++ ">"

/-- The children of a node: text as it is, everything else as it is displayed. -/
def displayChildren : List Value → String
  | [] => ""
  | .string s :: rest => s ++ displayChildren rest
  | v :: rest => display v ++ displayChildren rest

end

/-- The text of the value inside another text. -/
def literal : Value → String
  | .null => ""
  | .string s => s
  | v => v.display

/-- The text starts like a JSON object or array. -/
def looksStructured (cs : List Char) : Bool :=
  cs.head? = some '\x7b' || cs.head? = some '['

/-- A text as generic data. -/
def ofText (text : String) : Value :=
  let trimmed := Text.trim text
  if looksStructured trimmed.toList then
    match Json.read? trimmed with
    | none => .string text
    | some json =>
      match ofJson json with
      | .ok v => v
      | .error _ => .string text
  else .string text

end Value

end DataContract
