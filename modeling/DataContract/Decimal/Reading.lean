import DataContract.Decimal.Basic
import DataContract.Text.Blank
import DataContract.Text.Split

/-!
# Reading decimals

Plain notation is an optional sign and digits with at most one point; an underscore may stand
anywhere after the first digit. Digits that do not fit are an error before the point and are
rounded away behind it, half up, at the first digit that does not fit. Scientific notation is a
plain base and an exponent behind `e` or `E`.

A text that is no plain decimal is read as scientific, and it is that second reading whose failure
is reported.
-/

namespace DataContract

-- Powers are those of the core library, whatever algebra is in scope where they are read.
attribute [local instance (high)] instPowNat

namespace Decimal

/-- Why a text is not a decimal. -/
inductive ReadError where
  | empty
  | noDigits
  | unknownCharacter
  | secondPoint
  | leadingSeparator
  | tooManyDigits
  | roundedTooFar
  | notScientific
  | scaleTooLarge (exponent : Nat)
  | tooLarge
deriving DecidableEq, Repr

/-- The wording of a failed reading. -/
def ReadError.message : ReadError → String
  | .empty => "Invalid decimal: empty"
  | .noDigits => "Invalid decimal: no digits found"
  | .unknownCharacter => "Invalid decimal: unknown character"
  | .secondPoint => "Invalid decimal: two decimal points"
  | .leadingSeparator => "Invalid decimal: must start lead with a number"
  | .tooManyDigits => "Invalid decimal: overflow from too many digits"
  | .roundedTooFar => "Invalid decimal: overflow from mantissa after rounding"
  | .notScientific => "Failed to parse"
  | .scaleTooLarge exponent =>
    s!"Scale exceeds the maximum precision allowed: {exponent} > 28"
  | .tooLarge => "Number exceeds maximum value that can be represented."

/-- What is wrong with a character that is neither a digit nor allowed where it stands. -/
def badCharacter (c : Char) : ReadError :=
  if c = '.' then .secondPoint
  else if c = '_' then .leadingSeparator
  else .unknownCharacter

/-- What is wrong with the first character that is no digit and no separator. -/
def tailError? : List Char → Option ReadError
  | [] => none
  | c :: rest =>
    if (Text.digit? c).isSome || c = '_' then tailError? rest else some (badCharacter c)

/-- A coefficient rounded on the digit behind it, half up. One that outgrows its bound by that gives
up its last digit. -/
def roundOn (coefficient scale digit : Nat) : Except ReadError (Nat × Nat) :=
  if digit < 5 then .ok (coefficient, scale)
  else if coefficient + 1 < 2 ^ (96 : Nat) then .ok (coefficient + 1, scale)
  else if scale = 0 then .error .roundedTooFar
  else .ok ((coefficient + 1 + 4) / 10, scale - 1)

/-- Ends a fraction by a digit that does not fit: rounds on it, and checks that only digits and
separators follow. -/
def roundTail (coefficient scale digit : Nat) (rest : List Char) : Except ReadError (Nat × Nat) := do
  let rounded ← roundOn coefficient scale digit
  match tailError? rest with
  | some e => .error e
  | none => .ok rounded

/-- The coefficient from which on a further digit may need more than a 64-bit word: a tenth of the
largest word, less the largest byte. -/
def wideFrom : Nat := (UInt64.size - 1) / 10 - 255

/-- Ends a fraction at its first digit behind any separators. -/
def endWide (coefficient scale : Nat) : List Char → Except ReadError (Nat × Nat)
  | [] => .ok (coefficient, scale)
  | c :: rest =>
    match Text.digit? c with
    | some d => roundTail coefficient scale d rest
    | none => if c = '_' then endWide coefficient scale rest else .error (badCharacter c)

/-- Ends a fraction that has all its places, at the character `c`. A separator there stands for a
zero, unless the coefficient was wide before its last digit: then it is looked through. -/
def endPlaces (coefficient scale : Nat) (c : Char) (rest : List Char) :
    Except ReadError (Nat × Nat) :=
  if wideFrom ≤ coefficient / 10 then endWide coefficient scale (c :: rest)
  else match Text.digit? c with
    | some d => roundTail coefficient scale d rest
    | none => if c = '_' then roundTail coefficient scale 0 rest else .error (badCharacter c)

/-- Reads digits, the point and separators, from what has been read so far: whether the point and
a digit have been seen, the coefficient and the scale. -/
def readDigits (point digit : Bool) (coefficient scale : Nat) :
    List Char → Except ReadError (Nat × Nat)
  | [] => if digit then .ok (coefficient, scale) else .error .noDigits
  | c :: rest =>
    if point && scale ≥ 28 then endPlaces coefficient scale c rest
    else match Text.digit? c with
      | some d =>
        if coefficient * 10 + d < 2 ^ (96 : Nat) then
          readDigits point true (coefficient * 10 + d) (if point then scale + 1 else scale) rest
        else if point then roundTail coefficient scale d rest
        else .error .tooManyDigits
      | none =>
        if c = '.' && !point then readDigits true digit coefficient scale rest
        else if c = '_' && digit then readDigits point digit coefficient scale rest
        else .error (badCharacter c)

/-- Reads plain notation behind the sign. -/
def ofUnsigned (negative : Bool) (cs : List Char) : Except ReadError Decimal := do
  let (coefficient, scale) ← readDigits false false 0 0 cs
  match ofParts? (if negative then -(coefficient : Int) else coefficient) scale with
  | some d => .ok d
  | none => .error .tooLarge

/-- Reads plain notation. -/
def ofPlain : List Char → Except ReadError Decimal
  | [] => .error .empty
  | '-' :: rest => ofUnsigned true rest
  | '+' :: rest => ofUnsigned false rest
  | cs => ofUnsigned false cs

/-- The magnitude rounded half up to `scale` fraction digits; a smaller scale is left alone. -/
def roundHalfUp (a : Decimal) (scale : Nat) : Nat :=
  if a.scale ≤ scale then a.magnitude
  else
    let d := 10 ^ (a.scale - scale)
    (2 * a.magnitude + d) / (2 * d)

/-- Divides by a power of ten, rounding what does not fit 28 fraction digits. The sign is kept, also
of a number that becomes zero. -/
def shiftDown (a : Decimal) (exponent : Nat) : Except ReadError Decimal :=
  if exponent > 28 then .error (.scaleTooLarge exponent)
  else
    let shifted :=
      if a.scale + exponent ≤ 28 then ofSigned? a.negative a.magnitude (a.scale + exponent)
      else ofSigned? a.negative (a.roundHalfUp (28 - exponent)) 28
    match shifted with
    | some d => .ok d
    | none => .error .tooLarge

/-- Multiplies by a power of ten; fraction digits beyond the shift stay as they are. -/
def shiftUp (a : Decimal) (exponent : Nat) : Except ReadError Decimal :=
  if exponent ≤ a.scale then
    match ofParts? a.coefficient (a.scale - exponent) with
    | some d => .ok d
    | none => .error .tooLarge
  else if exponent > 28 then .error (.scaleTooLarge exponent)
  else match ofParts? (a.coefficient * 10 ^ (exponent - a.scale)) 0 with
    | some d => .ok d
    | none => .error .tooLarge

/-- Reads scientific notation. -/
def ofScientific (cs : List Char) : Except ReadError Decimal :=
  match Text.splitOnce (fun c => c = 'e' || c = 'E') cs with
  | none => .error .notScientific
  | some (base, exponent) => do
    let base ← ofPlain base
    match exponent with
    | '-' :: rest =>
      match Text.boundedNat? UInt32.size rest with
      | none => .error .notScientific
      | some e => base.shiftDown e
    | exponent =>
      match Text.boundedNat? UInt32.size exponent with
      | none => .error .notScientific
      | some e => base.shiftUp e

/-- Reads a decimal in either notation, with blank characters around it. -/
def ofText (text : String) : Except ReadError Decimal :=
  let cs := Text.trimChars text.toList
  match ofPlain cs with
  | .ok d => .ok d
  | .error _ => ofScientific cs

end Decimal

end DataContract
