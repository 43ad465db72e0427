import DataContract.Binary64.Basic
import DataContract.Format.Timestamp
import DataContract.Toml.Basic

/-!
# Reading TOML

A document is a row of lines: headers, entries, comments and blank lines. Every function takes a
text and gives what it read and what follows, and each recursive step consumes at least one
character, so that the length of the text bounds the depth of the recursion. Arrays and inline
tables nest, and dotted keys have parts, up to a fixed number.
-/

namespace DataContract

-- Powers are those of the core library, whatever algebra is in scope where they are read.
attribute [local instance (high)] instPowNat

namespace Toml

namespace Reader

/-- How deep arrays and inline tables may nest, and how many parts a key may have. -/
def maxDepth : Nat := 79

/-! ## Blanks and comments -/

/-- A blank character inside a line. -/
def isBlank (c : Char) : Bool :=
  c = ' ' || c = '\t'

/-- A character that may stand in comments and strings. -/
def isPlain (c : Char) : Bool :=
  c = '\t' || (c.toNat ≥ 32 && c.toNat ≠ 127)

/-- The text without the blank characters at its front. -/
def skipBlank (cs : List Char) : List Char :=
  cs.dropWhile isBlank

/-- What follows a line break. -/
def newline? : List Char → Option (List Char)
  | '\n' :: rest => some rest
  | '\r' :: '\n' :: rest => some rest
  | _ => none

/-- The text without blank characters, line breaks and comments at its front; whether it starts
inside a comment is given. -/
def skipGap : Bool → List Char → List Char
  | _, [] => []
  | _, '\n' :: rest => skipGap false rest
  | _, '\r' :: '\n' :: rest => skipGap false rest
  | comment, c :: rest =>
    if !comment && c = '#' then skipGap true rest
    else if isBlank c || (comment && isPlain c) then skipGap comment rest
    else c :: rest

/-- The text without blank characters and line breaks at its front. -/
def skipLines : List Char → List Char
  | [] => []
  | '\r' :: '\n' :: rest => skipLines rest
  | c :: rest => if isBlank c || c = '\n' then skipLines rest else c :: rest

/-- Ends a line: blank characters and a comment may stand before the line break. -/
def endLine? (cs : List Char) : Option (List Char) :=
  let rest := match skipBlank cs with
    | '#' :: rest => rest.dropWhile isPlain
    | rest => rest
  if rest.isEmpty then some [] else newline? rest

/-! ## Strings -/

/-- A number in hexadecimal digits, all of them. -/
def hexNumber? (cs : List Char) : Option Nat :=
  cs.foldl (fun n c => do return (← n) * 16 + (← Text.hexDigit? c)) (some 0)

/-- The character with a code of `width` hexadecimal digits. -/
def codePoint? (width : Nat) (cs : List Char) : Option (Char × List Char) := do
  let n ← if cs.length < width then none else hexNumber? (cs.take width)
  if n < 0xD800 || (0xDFFF < n && n < 0x110000) then some (Char.ofNat n, cs.drop width) else none

/-- The character of an escape, behind the backslash. -/
def escape? : List Char → Option (Char × List Char)
  | 'b' :: rest => some ('\x08', rest)
  | 't' :: rest => some ('\t', rest)
  | 'n' :: rest => some ('\n', rest)
  | 'f' :: rest => some ('\x0c', rest)
  | 'r' :: rest => some ('\r', rest)
  | '"' :: rest => some ('"', rest)
  | '\\' :: rest => some ('\\', rest)
  | 'u' :: rest => codePoint? 4 rest
  | 'U' :: rest => codePoint? 8 rest
  | _ => none

/-- Reads a string with escapes behind its opening quote; `done` holds the characters read so far,
the last one first. -/
def basicTail : Nat → List Char → List Char → Option (String × List Char)
  | 0, _, _ => none
  | _ + 1, _, [] => none
  | fuel + 1, done, c :: rest =>
    if c = '"' then some (String.ofList done.reverse, rest)
    else if c = '\\' then
      match escape? rest with
      | some (c, rest) => basicTail fuel (c :: done) rest
      | none => none
    else if isPlain c then basicTail fuel (c :: done) rest
    else none

/-- The quote of strings without escapes. -/
def apostrophe : Char := '\x27'

/-- Reads a string without escapes behind its opening quote. -/
def literalTail (cs : List Char) : Option (String × List Char) :=
  let inside (c : Char) : Bool := isPlain c && c ≠ apostrophe
  match cs.dropWhile inside with
  | c :: rest => if c = apostrophe then some (String.ofList (cs.takeWhile inside), rest) else none
  | [] => none

/-- Reads a string of several lines behind its opening quotes. Three quotes in a row end it, after
up to two more that belong to it. With escapes, a backslash at the end of a line joins it to the
next text. -/
def linesTail (quote : Char) (escapes : Bool) :
    Nat → List Char → List Char → Option (String × List Char)
  | 0, _, _ => none
  | _ + 1, _, [] => none
  | fuel + 1, done, c :: rest =>
    if c = quote then
      let count := ((c :: rest).takeWhile (· = quote)).length
      if count < 3 then
        linesTail quote escapes fuel (List.replicate count quote ++ done) ((c :: rest).drop count)
      else
        let extra := min (count - 3) 2
        some (String.ofList (List.replicate extra quote ++ done).reverse,
          (c :: rest).drop (extra + 3))
    else if escapes && c = '\\' then
      match escape? rest with
      | some (c, rest) => linesTail quote escapes fuel (c :: done) rest
      | none =>
        match newline? (skipBlank rest) with
        | some rest => linesTail quote escapes fuel done (skipLines rest)
        | none => none
    else if isPlain c then linesTail quote escapes fuel (c :: done) rest
    else
      match newline? (c :: rest) with
      | some rest => linesTail quote escapes fuel ('\n' :: done) rest
      | none => none

/-- Reads a string of several lines behind its opening quotes and a line break right after them. -/
def lines? (quote : Char) (escapes : Bool) (cs : List Char) : Option (String × List Char) :=
  linesTail quote escapes (cs.length + 1) [] ((newline? cs).getD cs)

/-- Reads a string of any of the four forms. -/
def string? (cs : List Char) : Option (String × List Char) :=
  match cs with
  | '"' :: '"' :: '"' :: rest => lines? '"' true rest
  | '"' :: rest => basicTail (rest.length + 1) [] rest
  | '\x27' :: '\x27' :: '\x27' :: rest => lines? apostrophe false rest
  | '\x27' :: rest => literalTail rest
  | _ => none

/-! ## Keys -/

/-- A character of a key without quotes. -/
def isBareKey (c : Char) : Bool :=
  ('a' ≤ c && c ≤ 'z') || ('A' ≤ c && c ≤ 'Z') || ('0' ≤ c && c ≤ '9') || c = '_' || c = '-'

/-- Reads one part of a key: a string of one line, or a bare key. -/
def keyPart? (cs : List Char) : Option (String × List Char) :=
  match cs with
  | '"' :: rest => basicTail (rest.length + 1) [] rest
  | '\x27' :: rest => literalTail rest
  | cs =>
    let name := cs.takeWhile isBareKey
    if name.isEmpty then none else some (String.ofList name, cs.dropWhile isBareKey)

/-- Reads the parts of a key with points between them, and the blank characters around them. -/
def keyParts : Nat → List Char → Option (List String × List Char)
  | 0, _ => none
  | fuel + 1, cs =>
    match keyPart? (skipBlank cs) with
    | none => none
    | some (part, rest) =>
      match skipBlank rest with
      | '.' :: rest => (keyParts fuel rest).map fun (parts, rest) => (part :: parts, rest)
      | rest => some ([part], rest)

/-- Reads a key. -/
def key? (cs : List Char) : Option (List String × List Char) :=
  keyParts maxDepth cs

/-! ## Numbers and moments -/

/-- Further digits, each perhaps behind one underscore. -/
def moreDigits (digit : Char → Bool) : List Char → List Char × List Char
  | '_' :: c :: rest =>
    if digit c then
      let (ds, rest) := moreDigits digit rest
      (c :: ds, rest)
    else ([], '_' :: c :: rest)
  | c :: rest =>
    if digit c then
      let (ds, rest) := moreDigits digit rest
      (c :: ds, rest)
    else ([], c :: rest)
  | [] => ([], [])

/-- Reads digits, the first of which stands at the front. -/
def digits? (digit : Char → Bool) : List Char → Option (List Char × List Char)
  | [] => none
  | c :: rest =>
    if digit c then
      let (ds, rest) := moreDigits digit rest
      some (c :: ds, rest)
    else none

/-- The sign at the front of a text, which may be left out, and what follows. -/
def sign (cs : List Char) : Bool × List Char :=
  match cs with
  | '-' :: rest => (true, rest)
  | '+' :: rest => (false, rest)
  | cs => (false, cs)

/-- The value of digits in a base. -/
def valueOf (base : Nat) (ds : List Char) : Nat :=
  ds.foldl (fun n c => n * base + (Text.hexDigit? c).getD 0) 0

/-- An integer, if it fits a signed word of 64 bits. -/
def integer? (n : Int) : Option Toml :=
  if Int64.minValue.toInt ≤ n ∧ n ≤ Int64.maxValue.toInt then some (.integer n) else none

/-- Reads an integer in another base, behind the letter of the base. -/
def based? (base : Nat) (cs : List Char) : Option (Toml × List Char) := do
  let (ds, rest) ← digits? (fun c => (Text.hexDigit? c).any (· < base)) cs
  return (← integer? (valueOf base ds), rest)

/-- A number is not beyond the largest binary float. -/
def isFinite (significand : Nat) (exponent : Int) : Bool :=
  let leading : Int := exponent + (Nat.toDigits 10 significand).length
  if significand = 0 || leading < 300 then true
  else if leading > 310 then false
  else if exponent ≥ 0 then
    (Binary64.ofFraction? false (significand * 10 ^ exponent.toNat) 1).isSome
  else (Binary64.ofFraction? false significand (10 ^ exponent.natAbs)).isSome

/-- Reads the fraction, if there is a point. -/
def fraction? (cs : List Char) : Option (List Char × List Char) :=
  match cs with
  | '.' :: rest => digits? Char.isDigit rest
  | cs => some ([], cs)

/-- Reads the exponent, if there is one. -/
def exponent? (cs : List Char) : Option (Option Int × List Char) :=
  let behind (cs : List Char) : Option (Option Int × List Char) := do
    let (negative, cs) := sign cs
    let (ds, rest) ← digits? Char.isDigit cs
    let n : Int := valueOf 10 ds
    return (some (if negative then -n else n), rest)
  match cs with
  | 'e' :: rest => behind rest
  | 'E' :: rest => behind rest
  | cs => some (none, cs)

/-- The characters of a text that come before its rest. -/
def upTo (cs rest : List Char) : String :=
  String.ofList (cs.take (cs.length - rest.length))

/-- Reads a decimal number. A float that is too large is an error unless it is negative. -/
def decimal? (cs : List Char) : Option (Toml × List Char) := do
  let (negative, behind) := sign cs
  let (whole, rest) ← digits? Char.isDigit behind
  if whole.head? = some '0' && whole.length > 1 then none
  else
    let (fraction, rest) ← fraction? rest
    let (exponent, rest) ← exponent? rest
    let n := valueOf 10 (whole ++ fraction)
    if fraction.isEmpty && exponent.isNone then
      return (← integer? (if negative then -(n : Int) else n), rest)
    else if negative || isFinite n (exponent.getD 0 - fraction.length) then
      return (.float (upTo cs rest), rest)
    else none

/-- Reads one of the words for the floats that are no numbers or infinite. -/
def special? (cs : List Char) : Option (Toml × List Char) :=
  let behind := (sign cs).2
  match Text.stripStart? "inf".toList behind with
  | some rest => some (.float (upTo cs rest), rest)
  | none => (Text.stripStart? "nan".toList behind).map fun rest => (.float (upTo cs rest), rest)

/-- Reads a number. -/
def number? (cs : List Char) : Option (Toml × List Char) :=
  match cs with
  | '0' :: 'x' :: rest => based? 16 rest
  | '0' :: 'o' :: rest => based? 8 rest
  | '0' :: 'b' :: rest => based? 2 rest
  | cs => (special? cs).or (decimal? cs)

/-- What follows a time of day. -/
def skipTime? (cs : List Char) : Option (List Char) := do
  let (hour, cs) ← CalendarDate.fixedDigits? 2 cs
  let cs ← Text.stripStart? [':'] cs
  let (minute, cs) ← CalendarDate.fixedDigits? 2 cs
  let cs ← Text.stripStart? [':'] cs
  let (second, cs) ← CalendarDate.fixedDigits? 2 cs
  if hour ≤ 23 && minute ≤ 59 && second ≤ 60 then Timestamp.skipFraction? cs else none

/-- What follows an offset from universal time, if there is one. -/
def skipOffset (cs : List Char) : List Char :=
  match cs with
  | 'Z' :: rest => rest
  | 'z' :: rest => rest
  | cs => if (Timestamp.offset? (cs.take 6)).isSome then cs.drop 6 else cs

/-- What follows a date, a date with a time, or a time. -/
def skipMoment? (cs : List Char) : Option (List Char) :=
  match CalendarDate.read? cs with
  | none => skipTime? cs
  | some ((year, month, day), rest) =>
    if !CalendarDate.exists? year month day then none
    else
      let behind (time : List Char) : List Char := ((skipTime? time).map skipOffset).getD rest
      match rest with
      | 'T' :: time => some (behind time)
      | 't' :: time => some (behind time)
      | ' ' :: time => some (behind time)
      | rest => some rest

/-- Reads a moment. -/
def moment? (cs : List Char) : Option (Toml × List Char) :=
  (skipMoment? cs).map fun rest => (.moment (upTo cs rest), rest)

/-! ## Values -/

/-- Reads a value that is neither an array nor a table. -/
def scalar? (cs : List Char) : Option (Toml × List Char) :=
  match cs with
  | '"' :: _ => (string? cs).map fun (s, rest) => (.string s, rest)
  | '\x27' :: _ => (string? cs).map fun (s, rest) => (.string s, rest)
  | 't' :: rest => (Text.stripStart? "rue".toList rest).map fun rest => (.boolean true, rest)
  | 'f' :: rest => (Text.stripStart? "alse".toList rest).map fun rest => (.boolean false, rest)
  | cs => (moment? cs).or (number? cs)

mutual

/-- Reads a value inside of which arrays and tables may nest `depth` deep. -/
def value : Nat → Nat → List Char → Option (Toml × List Char)
  | 0, _, _ => none
  | fuel + 1, depth, cs =>
    match cs with
    | '[' :: rest =>
      if depth = 0 then none
      else (elements fuel (depth - 1) rest).map fun (items, rest) => (.array items, rest)
    | '\x7b' :: rest =>
      if depth = 0 then none
      else
        match skipBlank rest with
        | '\x7d' :: rest => some (.table [], rest)
        | rest =>
          match entries fuel (depth - 1) rest with
          | none => none
          | some (es, rest) => (Table.inline? es).map fun t => (t, rest)
    | cs => scalar? cs

/-- Reads the elements of an array and its closing bracket; a comma may stand behind the last. -/
def elements : Nat → Nat → List Char → Option (List Toml × List Char)
  | 0, _, _ => none
  | fuel + 1, depth, cs =>
    match skipGap false cs with
    | ']' :: rest => some ([], rest)
    | cs =>
      match value fuel depth cs with
      | none => none
      | some (item, rest) =>
        match skipGap false rest with
        | ']' :: rest => some ([item], rest)
        | ',' :: rest => (elements fuel depth rest).map fun (items, rest) => (item :: items, rest)
        | _ => none

/-- Reads the entries of a table in braces, which has some, and its closing brace. -/
def entries : Nat → Nat → List Char → Option (List (List String × Toml) × List Char)
  | 0, _, _ => none
  | fuel + 1, depth, cs =>
    match entry fuel depth cs with
    | none => none
    | some (e, rest) =>
      match skipBlank rest with
      | '\x7d' :: rest => some ([e], rest)
      | ',' :: rest => (entries fuel depth rest).map fun (es, rest) => (e :: es, rest)
      | _ => none

/-- Reads a key, an equals sign and a value. -/
def entry : Nat → Nat → List Char → Option ((List String × Toml) × List Char)
  | 0, _, _ => none
  | fuel + 1, depth, cs =>
    match key? cs with
    | some (key, '=' :: rest) =>
      (value fuel depth (skipBlank rest)).map fun (v, rest) => ((key, v), rest)
    | _ => none

end

/-! ## Documents -/

/-- Reads a header, behind its first bracket. -/
def header? (cs : List Char) : Option (Part × List Char) :=
  match cs with
  | '[' :: rest =>
    match key? rest with
    | some (path, ']' :: ']' :: rest) => some (⟨path, true, []⟩, rest)
    | _ => none
  | rest =>
    match key? rest with
    | some (path, ']' :: rest) => some (⟨path, false, []⟩, rest)
    | _ => none

/-- Reads the lines of a document behind the given parts, of which the last stands first and has its
entries in reverse. -/
def parts? : Nat → Part → List Part → List Char → Option (List Part)
  | 0, _, _, _ => none
  | fuel + 1, current, done, cs =>
    match skipGap false cs with
    | [] => some (current :: done)
    | '[' :: rest =>
      match header? rest with
      | none => none
      | some (next, rest) => (endLine? rest).bind (parts? fuel next (current :: done))
    | cs =>
      match entry fuel maxDepth cs with
      | none => none
      | some (e, rest) =>
        (endLine? rest).bind
          (parts? fuel { current with entries := e :: current.entries } done)

end Reader

/-- Reads a whole document and gives the members of its table. A byte order mark may stand at its
front. -/
def read? (text : String) : Option (List (String × Toml)) :=
  let cs := match text.toList with
    | '\ufeff' :: rest => rest
    | cs => cs
  (Reader.parts? (cs.length + 1) ⟨[], false, []⟩ [] cs).bind fun parts =>
    ofParts? (parts.reverse.map fun part => { part with entries := part.entries.reverse })

end Toml

end DataContract
