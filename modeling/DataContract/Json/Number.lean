import DataContract.Binary64.Shortest
import DataContract.Text.Split

/-!
# JSON numbers

A number without fraction and exponent that fits a 64-bit word, signed or unsigned, is an integer;
every other number, `-0` among them, is a binary floating-point number.

The digits are collected into an unsigned 64-bit significand and a power of ten. Digits that no
longer fit only move the power (before the point) or are dropped (behind it). The significand is
rounded to binary, then multiplied or divided once by the binary number nearest to the power of
ten. So the result is close to, but not always, the nearest binary number.

A floating-point number is printed with the fewest digits that read back, positionally from
`0.00001` up to sixteen digits before the point and with an exponent beyond.
-/

namespace DataContract

-- Powers are those of the core library, whatever algebra is in scope where they are read.
attribute [local instance (high)] instPowNat

namespace Json

/-- A number as JSON text distinguishes them. -/
inductive Number where
  | int (value : Int)
  | float (value : Binary64)
deriving DecidableEq, Repr

namespace Number

/-- The binary number nearest to a power of ten. -/
def powerOfTen (exponent : Nat) : Binary64 :=
  (Binary64.ofNat? (10 ^ exponent)).getD Binary64.zero

/-- `x / 10 ^ exponent`, in divisions by at most `10 ^ 308`. -/
def scaleDown : Nat → Binary64 → Nat → Option Binary64
  | 0, x, _ => some x
  | steps + 1, x, exponent =>
    if x.isZero then some x
    else if exponent ≤ 308 then x.div? (powerOfTen exponent)
    else do scaleDown steps (← x.div? (powerOfTen 308)) (exponent - 308)

/-- The binary number for a significand and a power of ten; nothing if it is out of range. -/
def ofParts? (negative : Bool) (significand : Nat) (exponent : Int) : Option Binary64 := do
  let x ← Binary64.ofNat? significand
  let magnitude ←
    if x.isZero then some x
    else if exponent ≥ 0 then
      if exponent ≤ 308 then x.mul? (powerOfTen exponent.toNat) else none
    else scaleDown 8 x (-exponent).toNat
  return if negative then magnitude.neg else magnitude

/-- The largest significand. -/
def maxSignificand : Nat := UInt64.size - 1

/-- The leading digits of a text and what follows them. -/
def spanDigits (cs : List Char) : List Char × List Char :=
  (cs.takeWhile Char.isDigit, cs.dropWhile Char.isDigit)

/-- Adds digits to a significand for as long as it fits; also how many were added and how many
were left. -/
def collect (significand : Nat) : List Char → Nat × Nat × Nat
  | [] => (significand, 0, 0)
  | c :: rest =>
    let next := significand * 10 + (c.toNat - 48)
    if next ≤ maxSignificand then
      let (s, used, left) := collect next rest
      (s, used + 1, left)
    else (significand, 0, rest.length + 1)

/-- The exponents of a text beyond which no sum stays in a 32-bit word. -/
def maxExponent : Nat := UInt32.size / 2 - 1

/-- A value clamped to the signed 32-bit words. -/
def clamp (n : Int) : Int :=
  max Int32.minValue.toInt (min Int32.maxValue.toInt n)

/-- Reads an exponent, behind its `e`, and ends the number. -/
def exponentPart (negative : Bool) (significand : Nat) (start : Int) (cs : List Char) :
    Option (Number × List Char) :=
  let (down, cs) := match cs with
    | '+' :: rest => (false, rest)
    | '-' :: rest => (true, rest)
    | cs => (false, cs)
  let (ds, rest) := spanDigits cs
  match Text.digits? ds with
  | none => none
  | some e =>
    if e > maxExponent then
      if significand ≠ 0 && !down then none
      else some (.float ⟨negative, 0, Binary64.minExponent⟩, rest)
    else do
      let x ← ofParts? negative significand (clamp (if down then start - e else start + e))
      return (.float x, rest)

/-- Ends a number that is no integer: an exponent may follow. -/
def floatEnd (negative : Bool) (significand : Nat) (exponent : Int) (cs : List Char) :
    Option (Number × List Char) :=
  match cs with
  | 'e' :: rest => exponentPart negative significand exponent rest
  | 'E' :: rest => exponentPart negative significand exponent rest
  | cs => do return (.float (← ofParts? negative significand exponent), cs)

/-- Reads the fraction, behind its point. -/
def fractionPart (negative : Bool) (significand : Nat) (exponent : Int) (cs : List Char) :
    Option (Number × List Char) :=
  let (ds, rest) := spanDigits cs
  if ds.isEmpty then none
  else
    let (significand, used, _) := collect significand ds
    floatEnd negative significand (exponent - used) rest

/-- The integer with this sign and magnitude, if it is one of a 64-bit word and not `-0`. -/
def ofInteger? (negative : Bool) (magnitude : Nat) : Option Number :=
  if !negative then some (.int magnitude)
  else if magnitude = 0 || magnitude > UInt64.size / 2 then
    (Binary64.ofNat? magnitude).map fun x => .float x.neg
  else some (.int (-(magnitude : Int)))

/-- Reads a number, behind its minus sign, and gives what follows it. -/
def unsignedPart (negative : Bool) (cs : List Char) : Option (Number × List Char) :=
  let (ds, rest) := spanDigits cs
  match ds with
  | [] => none
  | '0' :: _ :: _ => none
  | ds =>
    let (significand, _, left) := collect 0 ds
    match rest with
    | '.' :: rest => fractionPart negative significand left rest
    | 'e' :: rest => exponentPart negative significand left rest
    | 'E' :: rest => exponentPart negative significand left rest
    | rest =>
      if left = 0 then (ofInteger? negative significand).map (·, rest)
      else floatEnd negative significand left rest

/-- Reads a number at the front of a text and gives what follows it. -/
def read? : List Char → Option (Number × List Char)
  | '-' :: rest => unsignedPart true rest
  | cs => unsignedPart false cs

/-! ## Text -/

/-- The digits of a decimal as text: positional where the leading digit stands between the fifth
fraction place and the sixteenth integer place, with an exponent elsewhere. -/
def layout (d : Binary64.Digits) : List Char :=
  let ds := Nat.toDigits 10 d.digits
  let leading : Int := d.exponent + ds.length - 1
  if leading < -5 || leading > 15 then
    let head := ds.take 1
    let tail := ds.drop 1
    let mantissa := if tail.isEmpty then head else head ++ '.' :: tail
    let sign := if leading < 0 then '-' else '+'
    mantissa ++ 'e' :: sign :: Nat.toDigits 10 leading.natAbs
  else if leading < 0 then
    '0' :: '.' :: (List.replicate (leading.natAbs - 1) '0' ++ ds)
  else
    let whole := leading.toNat + 1
    if ds.length ≤ whole then
      ds ++ List.replicate (whole - ds.length) '0' ++ ['.', '0']
    else ds.take whole ++ '.' :: ds.drop whole

/-- The text of a floating-point number. -/
def floatChars (x : Binary64) : List Char :=
  let magnitude :=
    if x.isZero then ['0', '.', '0'] else layout x.shortest.trimmed
  if x.negative then '-' :: magnitude else magnitude

/-- The text of a number. -/
def chars : Number → List Char
  | .int n => if n < 0 then '-' :: Nat.toDigits 10 n.natAbs else Nat.toDigits 10 n.natAbs
  | .float x => floatChars x

/-- The text of a number. -/
def text (n : Number) : String :=
  String.ofList n.chars

end Number

end Json

end DataContract
