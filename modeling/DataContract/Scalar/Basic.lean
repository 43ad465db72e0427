import DataContract.Error
import DataContract.Value.Basic

/-!
# Scalar patterns

A scalar pattern accepts values of one kind, some of them with bounds: numbers within inclusive
bounds, perhaps whole ones only, strings of bounded length, and strings in a fixed format. On the
wire the formats are all strings; `Scalar.family` says as what a value of the pattern travels.
-/

namespace DataContract

/-- Numbers within inclusive bounds, perhaps only whole ones. -/
structure NumberRange where
  minimum : Option Decimal
  maximum : Option Decimal
  integer : Bool

namespace NumberRange

/-- All numbers. -/
def any : NumberRange := ⟨none, none, false⟩

/-- All whole numbers. -/
def anyInteger : NumberRange := ⟨none, none, true⟩

/-- The range with these bounds, unless it holds no number. -/
def bounded (minimum maximum : Option Decimal) (integer : Bool) :
    Except ContractError NumberRange :=
  match minimum, maximum with
  | some lo, some hi =>
    if hi.lt lo then .error (.invalidBounds "minimum" lo.text "maximum" hi.text)
    else if integer && hi.lt lo.ceil then
      .error (.invalidBounds "integer minimum" lo.ceil.text "maximum" hi.text)
    else .ok ⟨minimum, maximum, integer⟩
  | _, _ => .ok ⟨minimum, maximum, integer⟩

/-- The ranges have equal bounds. -/
def equal (a b : NumberRange) : Bool :=
  a.minimum == b.minimum && a.maximum == b.maximum && a.integer == b.integer

end NumberRange

/-- Strings with a number of characters within inclusive bounds. -/
structure LengthRange where
  minLength : Option Nat
  maxLength : Option Nat
deriving DecidableEq, Repr

namespace LengthRange

/-- All strings. -/
def any : LengthRange := ⟨none, none⟩

/-- The range with these bounds, unless it holds no string. -/
def bounded (minLength maxLength : Option Nat) : Except ContractError LengthRange :=
  match minLength, maxLength with
  | some lo, some hi =>
    if lo > hi then
      .error (.invalidBounds "minLength" (toString lo) "maxLength" (toString hi))
    else .ok ⟨minLength, maxLength⟩
  | _, _ => .ok ⟨minLength, maxLength⟩

/-- The range holds every string. -/
def isUnbounded (r : LengthRange) : Bool :=
  r.minLength.getD 0 == 0 && r.maxLength.isNone

end LengthRange

/-- What a value travels as. -/
inductive Family where
  | null
  | number
  | boolean
  | string
  | structured
deriving DecidableEq, Repr

namespace Family

/-- The name of a family. -/
def name : Family → String
  | .null => "null"
  | .number => "number"
  | .boolean => "boolean"
  | .string => "string"
  | .structured => "structure"

/-- The family of a value. -/
def ofValue : Value → Family
  | .null => .null
  | .boolean _ => .boolean
  | .number _ => .number
  | .string _ => .string
  | _ => .structured

end Family

/-- A pattern of scalar values. -/
inductive Scalar where
  | number (range : NumberRange)
  | boolean
  | string (length : LengthRange)
  | date
  | dateTime
  | uuid
  | email
  | base64
  | binary
  | emptyString
  | null

namespace Scalar

/-- The name of the type in messages. -/
def typeName : Scalar → String
  | .number _ => "number"
  | .boolean => "boolean"
  | .string _ => "string"
  | .date => "date"
  | .dateTime => "datetime"
  | .uuid => "uuid"
  | .email => "email"
  | .base64 => "base64"
  | .binary => "binary"
  | .emptyString => "empty"
  | .null => "null"

/-- What a value of the pattern travels as. -/
def family : Scalar → Family
  | .number _ => .number
  | .boolean => .boolean
  | .null => .null
  | _ => .string

/-- The patterns are the same. -/
def equal : Scalar → Scalar → Bool
  | .number a, .number b => a.equal b
  | .boolean, .boolean => true
  | .string a, .string b => a == b
  | .date, .date => true
  | .dateTime, .dateTime => true
  | .uuid, .uuid => true
  | .email, .email => true
  | .base64, .base64 => true
  | .binary, .binary => true
  | .emptyString, .emptyString => true
  | .null, .null => true
  | _, _ => false

/-- The kinds are the same, whatever the bounds. -/
def sameKind (a b : Scalar) : Bool :=
  a.typeName == b.typeName

instance : BEq Scalar := ⟨equal⟩

end Scalar

end DataContract
