import DataContract.Text.Blank

/-!
# Names and keys

A pattern is written as a token in parentheses; the name of a registered pattern is kept in that
form, `(Name)`. In an object pattern a key with a question mark at its end is optional, and the key
`...` admits keys that are not declared.
-/

namespace DataContract

/-- The key that admits undeclared keys. -/
def ellipsis : String := "..."

namespace Name

/-- The characters start and end with the parentheses of a token. -/
def isDelimited (cs : List Char) : Bool :=
  cs.length ≥ 2 && cs.head? = some '(' && cs.getLast? = some ')'

/-- The text is a token in parentheses, perhaps with blank characters around it. -/
def isToken (text : String) : Bool :=
  isDelimited (Text.trimChars text.toList)

/-- The name in parentheses; a token stays as it is. -/
def delimited (name : String) : String :=
  let cs := Text.trimChars name.toList
  if isDelimited cs then String.ofList cs else String.ofList ('(' :: (cs ++ [')']))

/-- The trimmed characters of a text, without the parentheses if it is a token. -/
def bareChars (text : String) : List Char :=
  let cs := Text.trimChars text.toList
  if isDelimited cs then (cs.drop 1).dropLast else cs

/-- The trimmed text, without the parentheses if it is a token. -/
def bare (text : String) : String :=
  String.ofList (bareChars text)

end Name

namespace Key

/-- The key is marked as optional. -/
def isOptional (key : String) : Bool :=
  key.toList.getLast? = some '?' && key != ellipsis

/-- The key without the mark of an optional key. -/
def base (key : String) : String :=
  if isOptional key then String.ofList key.toList.dropLast else key

/-- The key with the mark of an optional key. -/
def optional (name : String) : String :=
  name ++ "?"

end Key

end DataContract
