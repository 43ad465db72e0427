import DataContract.Pattern.Basic
import DataContract.Text.Alphanumeric
import DataContract.Text.Split

/-!
# Pattern tokens

A token is a text in parentheses. It is taken apart from the outside in, always in the same order:

    (key:type)         looked up in examples under a key
    (type in string)   a string that reads as the type
    (type?)            null or the type
    (type...)          the rest of an array
    (type*)            a list
    (number) …         a built-in scalar
    (Name)             a registered pattern

Each step removes at least one character, so the length of the text bounds the number of steps; a
text without characters is an empty token.
-/

namespace DataContract

namespace Token

/-- The pattern of a built-in keyword. -/
def builtin? (word : String) : Option Pattern :=
  if word = "number" then some .number
  else if word = "integer" then some (.scalar (.number .anyInteger))
  else if word = "string" then some .string
  else if word = "boolean" then some .boolean
  else if word = "null" then some .null
  else if word = "date" then some (.scalar .date)
  else if word = "datetime" then some (.scalar .dateTime)
  else if word = "uuid" then some (.scalar .uuid)
  else if word = "email" then some (.scalar .email)
  else if word = "base64" then some (.scalar .base64)
  else if word = "binary" then some (.scalar .binary)
  else if word = "empty" then some (.scalar .emptyString)
  else if word = "anything" || word = "anyvalue" then some .anything
  else none

/-- A character that names of patterns are made of. -/
def isNameChar (c : Char) : Bool :=
  Text.isAlphanumeric c || c = '_' || c = '-' || c = '.' || c = ' '

/-- The ending of a type that is encoded in a string. -/
def inStringEnding : List Char := " in string".toList

/-- The pattern of a keyword or a name; an error names the whole token. -/
def base (whole : String) (cs : List Char) : Except ContractError Pattern :=
  match builtin? (String.ofList cs) with
  | some p => .ok p
  | none =>
    if cs.all isNameChar then .ok (.named (String.ofList cs))
    else .error (.token whole ("unrecognised type " ++ String.ofList cs))

/-- The pattern that the inside of a token denotes, in at most the given number of steps. -/
def denote (whole : String) : Nat → List Char → Except ContractError Pattern
  | 0, _ => .error (.token whole "empty token")
  | steps + 1, text =>
    let cs := Text.trimChars text
    if cs.isEmpty then .error (.token whole "empty token")
    else
      match Text.splitOnce (· = ':') cs with
      | some (key, type) =>
        let key := Text.trimChars key
        if key.isEmpty then .error (.token whole "row lookup needs a key name")
        else (denote whole steps type).map (.lookup (String.ofList key))
      | none =>
      match Text.stripEnd? inStringEnding cs with
      | some type => (denote whole steps type).map .inString
      | none =>
      match Text.stripEnd? ['?'] cs with
      | some type => (denote whole steps type).map .nullable
      | none =>
      match Text.stripEnd? ['.', '.', '.'] cs with
      | some type => (denote whole steps type).map .restOf
      | none =>
      match Text.stripEnd? ['*'] cs with
      | some type => (denote whole steps type).map .listOf
      | none => base whole cs

/-- The pattern that a token denotes. -/
def parse (token : String) : Except ContractError Pattern :=
  let trimmed := Text.trim token
  let inside := Name.bareChars trimmed
  denote trimmed (inside.length + 1) inside

end Token

end DataContract
