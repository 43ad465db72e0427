import DataContract.Json.Basic

/-!
# Printing JSON

The compact form has no blank characters; the indented form puts every element and member on its
own line, two spaces deeper than the bracket around it. In strings, quotes, backslashes and control
characters are escaped, and everything else stands as it is.
-/

namespace DataContract

namespace Json

namespace Printer

/-- A hexadecimal digit in small letters. -/
def hexDigit (n : Nat) : Char :=
  if n < 10 then Char.ofNat (48 + n) else Char.ofNat (87 + n)

/-- A character as it stands in a string. -/
def escaped (c : Char) : List Char :=
  if c = '"' then ['\\', '"']
  else if c = '\\' then ['\\', '\\']
  else if c = '\n' then ['\\', 'n']
  else if c = '\r' then ['\\', 'r']
  else if c = '\t' then ['\\', 't']
  else if c = '\x08' then ['\\', 'b']
  else if c = '\x0c' then ['\\', 'f']
  else if c.toNat < 32 then
    ['\\', 'u', '0', '0', hexDigit (c.toNat / 16), hexDigit (c.toNat % 16)]
  else [c]

/-- A string with its quotes. -/
def quoted (s : String) : List Char :=
  '"' :: (s.toList.flatMap escaped ++ ['"'])

/-- A line break and the indentation of a depth. -/
def newline (depth : Nat) : List Char :=
  '\n' :: List.replicate (2 * depth) ' '

mutual

/-- The compact form. -/
def compactChars : Json → List Char
  | .null => "null".toList
  | .bool true => "true".toList
  | .bool false => "false".toList
  | .number n => n.chars
  | .string s => quoted s
  | .array items => '[' :: (compactItems items ++ [']'])
  | .object members => '\x7b' :: (compactMembers members ++ ['\x7d'])

/-- The elements of an array, with commas between them. -/
def compactItems : List Json → List Char
  | [] => []
  | [item] => compactChars item
  | item :: rest => compactChars item ++ ',' :: compactItems rest

/-- The members of an object, with commas between them. -/
def compactMembers : List (String × Json) → List Char
  | [] => []
  | [(key, item)] => quoted key ++ ':' :: compactChars item
  | (key, item) :: rest => quoted key ++ ':' :: (compactChars item ++ ',' :: compactMembers rest)

end

mutual

/-- The indented form, inside brackets of the given depth. -/
def indentedChars (depth : Nat) : Json → List Char
  | .null => "null".toList
  | .bool true => "true".toList
  | .bool false => "false".toList
  | .number n => n.chars
  | .string s => quoted s
  | .array [] => ['[', ']']
  | .array items => '[' :: (indentedItems (depth + 1) items ++ newline depth ++ [']'])
  | .object [] => ['\x7b', '\x7d']
  | .object members => '\x7b' :: (indentedMembers (depth + 1) members ++ newline depth ++ ['\x7d'])

/-- The elements of an array, each on its own line. -/
def indentedItems (depth : Nat) : List Json → List Char
  | [] => []
  | [item] => newline depth ++ indentedChars depth item
  | item :: rest => newline depth ++ indentedChars depth item ++ ',' :: indentedItems depth rest

/-- The members of an object, each on its own line. -/
def indentedMembers (depth : Nat) : List (String × Json) → List Char
  | [] => []
  | [(key, item)] => newline depth ++ quoted key ++ ':' :: ' ' :: indentedChars depth item
  | (key, item) :: rest =>
    newline depth ++ quoted key ++ ':' :: ' ' :: (indentedChars depth item ++
      ',' :: indentedMembers depth rest)

end

end Printer

/-- The compact form. -/
def compact (json : Json) : String :=
  String.ofList (Printer.compactChars json)

/-- The indented form. -/
def indented (json : Json) : String :=
  String.ofList (Printer.indentedChars 0 json)

end Json

end DataContract
