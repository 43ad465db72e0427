import DataContract.Format.Base64
import DataContract.Format.CalendarDate
import DataContract.Format.Email
import DataContract.Format.Timestamp
import DataContract.Format.Uuid
import DataContract.MatchResult
import DataContract.Scalar.Basic
import DataContract.Value.Text

/-!
# Matching, reading and generating scalars

A scalar is read from text by reading a value of its kind and then matching that value, so what is
read is always accepted. Generation stays inside the bounds: a number is drawn from the whole
numbers between them as long as these fit a 64-bit word.
-/

namespace DataContract

namespace NumberRange

/-- The number is in the range; a failure names the first condition that does not hold. -/
def check (r : NumberRange) (d : Decimal) : MatchResult :=
  let actual := d.normalize.text
  if r.integer && !d.isWhole then .mismatch "integer" actual
  else
    match r.minimum.filter d.lt with
    | some lo => .mismatch ("number >= " ++ lo.text) actual
    | none =>
      match r.maximum.filter (·.lt d) with
      | some hi => .mismatch ("number <= " ++ hi.text) actual
      | none => .success

/-- The bounds between which numbers are drawn: a missing one is a thousand away from the other. -/
def drawBounds (r : NumberRange) : Decimal × Decimal :=
  match r.minimum, r.maximum with
  | some a, some b => (a, b)
  | some a, none => (a, (a.add? .thousand).getD a)
  | none, some b => ((b.sub? .thousand).getD b, b)
  | none, none => (.one, .thousand)

/-- Some number of the range. -/
def generate (r : NumberRange) (c : Choices) : Decimal :=
  let (lo, hi) := r.drawBounds
  let drawn : Option Decimal := do
    let a ← lo.ceil.toWord?
    let b ← hi.floor.toWord?
    if a ≤ b then Decimal.ofParts? (c.intBetween a b) 0 else none
  match drawn with
  | some d => d
  | none =>
    if r.integer then
      match r.maximum with
      | none => lo.ceil
      | some max => if lo.ceil.le max then lo.ceil else hi.floor
    else lo

end NumberRange

namespace LengthRange

/-- The string is in the range. -/
def check (r : LengthRange) (s : String) : MatchResult :=
  let actual := "\"" ++ s ++ "\""
  match r.minLength.filter (s.length < ·) with
  | some lo => .mismatch s!"string with minLength {lo}" actual
  | none =>
    match r.maxLength.filter (s.length > ·) with
    | some hi => .mismatch s!"string with maxLength {hi}" actual
    | none => .success

/-- The length of generated strings: five, moved into the bounds. -/
def drawLength (r : LengthRange) : Nat :=
  let n := match r.maxLength with
    | some hi => min 5 hi
    | none => 5
  match r.minLength with
  | some lo => max n lo
  | none => n

/-- Some string of the range. -/
def generate (r : LengthRange) (c : Choices) : String :=
  c.word r.drawLength

end LengthRange

namespace Scalar

/-- The test of a string format; other scalars have none. -/
def format? : Scalar → Option (List Char → Bool)
  | .date => some CalendarDate.accepts
  | .dateTime => some Timestamp.accepts
  | .uuid => some Uuid.accepts
  | .email => some Email.accepts
  | .base64 => some Base64.accepts
  | _ => none

/-- The scalar accepts the value. -/
def check (s : Scalar) (v : Value) : MatchResult :=
  match s, v with
  | .number r, .number d => r.check d
  | .boolean, .boolean _ => .success
  | .string r, .string text => r.check text
  | .null, .null => .success
  | .binary, .string _ => .success
  | .emptyString, .string text =>
    if text.isEmpty then .success else .mismatch s.typeName v.display
  | s, .string text =>
    match s.format? with
    | some accepts =>
      if accepts text.toList then .success
      else .mismatch (s.typeName ++ " string") v.display
    | none => .mismatch s.typeName v.display
  | s, v => .mismatch s.typeName v.display

/-- Reads a value of the kind of the scalar. -/
def read (s : Scalar) (text : String) : Except ContractError Value :=
  match s with
  | .number _ => (readDecimal text).map .number
  | .boolean =>
    let word := Text.lowerAscii (Text.trim text)
    if word = "true" then .ok (.boolean true)
    else if word = "false" then .ok (.boolean false)
    else .error (.parse text "boolean" "expected true or false")
  | .null =>
    let word := Text.trim text
    if word = "" || word = "null" || word = "(null)" then .ok .null
    else .error (.parse text "null" "expected null")
  | _ => .ok (.string text)

/-- Reads a value that the scalar accepts. -/
def parse (s : Scalar) (text : String) : Except ContractError Value :=
  match s.read text with
  | .error e => .error e
  | .ok v =>
    match s.check v with
    | .success => .ok v
    | .failure f => .error (.parse text s.typeName f.report)

/-- Some value that the scalar accepts. -/
def generate (s : Scalar) (c : Choices) : Value :=
  match s with
  | .number r => .number (r.generate c)
  | .boolean => .boolean c.coin
  | .string r => .string (r.generate c)
  | .date => .string (String.ofList (CalendarDate.generate c))
  | .dateTime => .string (String.ofList (Timestamp.generate c))
  | .uuid => .string (String.ofList (Uuid.generate c))
  | .email => .string (String.ofList (Email.generate c))
  | .base64 => .string (String.ofList (Base64.generate c))
  | .binary => .string (c.word 10)
  | .emptyString => .string ""
  | .null => .null

/-- What is read is accepted. -/
theorem check_of_parse {s : Scalar} {text : String} {v : Value} (h : s.parse text = .ok v) :
    s.check v = .success := by
  unfold parse at h
  split at h
  · simp at h
  · split at h
    · next hm => simp only [Except.ok.injEq] at h; exact h ▸ hm
    · simp at h

end Scalar

end DataContract
