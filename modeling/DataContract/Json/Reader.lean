import DataContract.Json.Basic

/-!
# Reading JSON

Texts nest arrays and objects at most 127 deep; blank characters are the space, the tab, the line
feed and the carriage return; control characters in strings must be escaped, and an escaped
surrogate must be one of a pair. Every function takes a text and gives what it read and what
follows, and each recursive step consumes at least one character, so that the length of the text
bounds the depth of the recursion.

Records, the fixed-field objects that documents and settings are, are read more leniently at their
top: a member with an unknown name is skipped by the bare grammar, without the limits on nesting,
numbers and surrogates; and the members are given in the order they were written, repetitions
included.
-/

namespace DataContract

namespace Json

namespace Reader

/-- How deep arrays and objects may nest. -/
def maxDepth : Nat := 127

/-- A blank character of JSON text. -/
def isSpace (c : Char) : Bool :=
  c = ' ' || c = '\t' || c = '\n' || c = '\r'

/-- The text without the blank characters at its front. -/
def skipSpace (cs : List Char) : List Char :=
  cs.dropWhile isSpace

/-- Four hexadecimal digits. -/
def hex4? : List Char → Option (Nat × List Char)
  | a :: b :: c :: d :: rest => do
    let n := (← Text.hexDigit? a) * 4096 + (← Text.hexDigit? b) * 256 +
      (← Text.hexDigit? c) * 16 + (← Text.hexDigit? d)
    return (n, rest)
  | _ => none

/-- The character of a one-letter escape. -/
def shortEscape? (c : Char) : Option Char :=
  if c = '"' then some '"'
  else if c = '\\' then some '\\'
  else if c = '/' then some '/'
  else if c = 'b' then some '\x08'
  else if c = 'f' then some '\x0c'
  else if c = 'n' then some '\n'
  else if c = 'r' then some '\r'
  else if c = 't' then some '\t'
  else none

/-- The character of a `u` escape, behind the letter: one code unit, or a pair of surrogates. -/
def unicodeEscape? (cs : List Char) : Option (Char × List Char) := do
  let (n, rest) ← hex4? cs
  if n < 0xD800 || n > 0xDFFF then return (Char.ofNat n, rest)
  else if n > 0xDBFF then none
  else match rest with
    | '\\' :: 'u' :: rest => do
      let (m, rest) ← hex4? rest
      if m < 0xDC00 || m > 0xDFFF then none
      else return (Char.ofNat (0x10000 + (n - 0xD800) * 1024 + (m - 0xDC00)), rest)
    | _ => none

/-- Reads a string behind its opening quote; `done` holds the characters read so far, the last one
first. -/
def stringTail : Nat → List Char → List Char → Option (String × List Char)
  | 0, _, _ => none
  | _ + 1, _, [] => none
  | fuel + 1, done, c :: rest =>
    if c = '"' then some (String.ofList done.reverse, rest)
    else if c = '\\' then
      match rest with
      | [] => none
      | 'u' :: rest =>
        match unicodeEscape? rest with
        | some (c, rest) => stringTail fuel (c :: done) rest
        | none => none
      | e :: rest =>
        match shortEscape? e with
        | some c => stringTail fuel (c :: done) rest
        | none => none
    else if c.toNat < 32 then none
    else stringTail fuel (c :: done) rest

/-- Reads a fixed word and gives its value. -/
def word? (word : String) (value : Json) (cs : List Char) : Option (Json × List Char) :=
  (Text.stripStart? word.toList cs).map fun rest => (value, rest)

/-- The key of a member, its colon and the blank characters around it. -/
def key? (fuel : Nat) (cs : List Char) : Option (String × List Char) :=
  match skipSpace cs with
  | '"' :: rest =>
    match stringTail fuel [] rest with
    | none => none
    | some (key, rest) =>
      match skipSpace rest with
      | ':' :: rest => some (key, rest)
      | _ => none
  | _ => none

/-- What becomes of the members of an object whose keys repeat. -/
inductive Keys where
  /-- The last member of a key stands. -/
  | lastStands
  /-- There is no such object. -/
  | distinct
deriving DecidableEq, Repr

/-- The object of the members that have been read. -/
def Keys.object? (keys : Keys) (pairs : List (String × Json)) : Option Json :=
  match keys with
  | .lastStands => some (ofPairs pairs)
  | .distinct => if (pairs.map (·.1)).Nodup then some (ofPairs pairs) else none

mutual

/-- Reads a value inside of which arrays and objects may nest `depth` deep. -/
def value (keys : Keys) : Nat → Nat → List Char → Option (Json × List Char)
  | 0, _, _ => none
  | fuel + 1, depth, cs =>
    match skipSpace cs with
    | [] => none
    | 'n' :: rest => word? "ull" .null rest
    | 't' :: rest => word? "rue" (.bool true) rest
    | 'f' :: rest => word? "alse" (.bool false) rest
    | '"' :: rest => (stringTail fuel [] rest).map fun (s, rest) => (.string s, rest)
    | '[' :: rest =>
      if depth = 0 then none
      else match skipSpace rest with
        | ']' :: rest => some (.array [], rest)
        | rest => (elements keys fuel (depth - 1) rest).map fun (items, rest) => (.array items, rest)
    | '\x7b' :: rest =>
      if depth = 0 then none
      else match skipSpace rest with
        | '\x7d' :: rest => some (.object [], rest)
        | rest =>
          match members keys fuel (depth - 1) rest with
          | none => none
          | some (pairs, rest) => (keys.object? pairs).map fun json => (json, rest)
    | cs => (Number.read? cs).map fun (n, rest) => (.number n, rest)

/-- Reads the elements of an array that is not empty, and its closing bracket. -/
def elements (keys : Keys) : Nat → Nat → List Char → Option (List Json × List Char)
  | 0, _, _ => none
  | fuel + 1, depth, cs =>
    match value keys fuel depth cs with
    | none => none
    | some (item, rest) =>
      match skipSpace rest with
      | ']' :: rest => some ([item], rest)
      | ',' :: rest => (elements keys fuel depth rest).map fun (items, rest) => (item :: items, rest)
      | _ => none

/-- Reads the members of an object that is not empty, and its closing brace. -/
def members (keys : Keys) : Nat → Nat → List Char → Option (List (String × Json) × List Char)
  | 0, _, _ => none
  | fuel + 1, depth, cs =>
    match key? fuel cs with
    | none => none
    | some (key, rest) =>
      match value keys fuel depth rest with
      | none => none
      | some (item, rest) =>
        match skipSpace rest with
        | '\x7d' :: rest => some ([(key, item)], rest)
        | ',' :: rest =>
          (members keys fuel depth rest).map fun (pairs, rest) => ((key, item) :: pairs, rest)
        | _ => none

end

/-! ## Skipping -/

/-- Skips a string behind its opening quote. -/
def skipString : Nat → List Char → Option (List Char)
  | 0, _ => none
  | _ + 1, [] => none
  | fuel + 1, c :: rest =>
    if c = '"' then some rest
    else if c = '\\' then
      match rest with
      | [] => none
      | 'u' :: rest => (hex4? rest).bind fun (_, rest) => skipString fuel rest
      | e :: rest => if (shortEscape? e).isSome then skipString fuel rest else none
    else if c.toNat < 32 then none
    else skipString fuel rest

/-- Skips an exponent, if there is one. -/
def skipExponent (cs : List Char) : Option (List Char) :=
  let digits (cs : List Char) : Option (List Char) :=
    let cs := match cs with
      | '+' :: rest => rest
      | '-' :: rest => rest
      | cs => cs
    let (ds, rest) := Number.spanDigits cs
    if ds.isEmpty then none else some rest
  match cs with
  | 'e' :: rest => digits rest
  | 'E' :: rest => digits rest
  | cs => some cs

/-- Skips a number behind its minus sign. -/
def skipUnsigned (cs : List Char) : Option (List Char) :=
  let (ds, rest) := Number.spanDigits cs
  match ds with
  | [] => none
  | '0' :: _ :: _ => none
  | _ =>
    match rest with
    | '.' :: rest =>
      let (ds, rest) := Number.spanDigits rest
      if ds.isEmpty then none else skipExponent rest
    | rest => skipExponent rest

mutual

/-- Skips a value. -/
def skipValue : Nat → List Char → Option (List Char)
  | 0, _ => none
  | fuel + 1, cs =>
    match skipSpace cs with
    | [] => none
    | 'n' :: rest => Text.stripStart? "ull".toList rest
    | 't' :: rest => Text.stripStart? "rue".toList rest
    | 'f' :: rest => Text.stripStart? "alse".toList rest
    | '"' :: rest => skipString fuel rest
    | '[' :: rest =>
      match skipSpace rest with
      | ']' :: rest => some rest
      | rest => skipElements fuel rest
    | '\x7b' :: rest =>
      match skipSpace rest with
      | '\x7d' :: rest => some rest
      | rest => skipMembers fuel rest
    | '-' :: rest => skipUnsigned rest
    | cs => skipUnsigned cs

/-- Skips the elements of an array that is not empty, and its closing bracket. -/
def skipElements : Nat → List Char → Option (List Char)
  | 0, _ => none
  | fuel + 1, cs =>
    match skipValue fuel cs with
    | none => none
    | some rest =>
      match skipSpace rest with
      | ']' :: rest => some rest
      | ',' :: rest => skipElements fuel rest
      | _ => none

/-- Skips the members of an object that is not empty, and its closing brace. -/
def skipMembers : Nat → List Char → Option (List Char)
  | 0, _ => none
  | fuel + 1, cs =>
    match skipSpace cs with
    | '"' :: rest =>
      match skipString fuel rest with
      | none => none
      | some rest =>
        match skipSpace rest with
        | ':' :: rest =>
          match skipValue fuel rest with
          | none => none
          | some rest =>
            match skipSpace rest with
            | '\x7d' :: rest => some rest
            | ',' :: rest => skipMembers fuel rest
            | _ => none
        | _ => none
    | _ => none

end

/-- Reads the members of a record, skipping those without a known name. -/
def recordMembers (keys : Keys) (known : List String) :
    Nat → List Char → Option (List (String × Json) × List Char)
  | 0, _ => none
  | fuel + 1, cs =>
    match key? fuel cs with
    | none => none
    | some (key, rest) =>
      let read : Option (List (String × Json) × List Char) :=
        if known.contains key then
          (value keys fuel (maxDepth - 1) rest).map fun (item, rest) => ([(key, item)], rest)
        else (skipValue fuel rest).map fun rest => ([], rest)
      match read with
      | none => none
      | some (this, rest) =>
        match skipSpace rest with
        | '\x7d' :: rest => some (this, rest)
        | ',' :: rest =>
          (recordMembers keys known fuel rest).map fun (pairs, rest) => (this ++ pairs, rest)
        | _ => none

end Reader

/-- Reads a whole text as one value. -/
def read? (text : String) : Option Json :=
  let cs := text.toList
  match Reader.value .lastStands (cs.length + 1) Reader.maxDepth cs with
  | some (json, rest) => if (Reader.skipSpace rest).isEmpty then some json else none
  | none => none

/-- The line and the column at which a text ends, counted from one and from zero. -/
def endPosition (cs : List Char) : Nat × Nat :=
  cs.foldl (fun (line, column) c => if c = '\n' then (line + 1, 0) else (line, column + 1)) (1, 0)

/-- What is reported of a text that is not JSON of the expected form. -/
def malformed (text : String) : String :=
  let (line, column) := endPosition text.toList
  s!"no value of the expected form ends at line {line} column {column}"

/-- The top of a record text: an object or the field values in their order. -/
inductive RecordText where
  | named (members : List (String × Json))
  | positional (items : List Json)

/-- Reads a whole text as a record with the given field names; the keys of the objects inside its
fields are as told. -/
def RecordText.read? (keys : Reader.Keys) (known : List String) (text : String) :
    Option RecordText :=
  let cs := text.toList
  let fuel := cs.length + 1
  let read : Option (RecordText × List Char) :=
    match Reader.skipSpace cs with
    | '\x7b' :: rest =>
      match Reader.skipSpace rest with
      | '\x7d' :: rest => some (.named [], rest)
      | rest => (Reader.recordMembers keys known fuel rest).map fun (ms, rest) => (.named ms, rest)
    | '[' :: rest =>
      match Reader.skipSpace rest with
      | ']' :: rest => some (.positional [], rest)
      | rest =>
        (Reader.elements keys fuel (Reader.maxDepth - 1) rest).map fun (items, rest) =>
          (.positional items, rest)
    | _ => none
  match read with
  | some (record, rest) => if (Reader.skipSpace rest).isEmpty then some record else none
  | none => none

/-- The values of the known fields of a record, in the order of their names, each absent or
present; nothing if a field is repeated or there are more values than fields. -/
def RecordText.fieldValues? (known : List String) : RecordText → Option (List (Option Json))
  | .named members =>
    let repeated := known.any fun name => (members.filter (·.1 = name)).length > 1
    if repeated then none
    else some (known.map fun name => (members.find? (·.1 = name)).map (·.2))
  | .positional items =>
    if items.length > known.length then none
    else some (items.map some ++ List.replicate (known.length - items.length) none)

end Json

end DataContract
