import DataContract.Binary64.Basic

/-!
# The shortest decimal of a binary number

The decimal that is written for a binary number is the one with the fewest digits among those that
read back as it, and of these the nearest. For 1, 2, … 17 digits the two neighbours of the number
on the decimal grid of that many digits are tested in exact arithmetic; the first grid with a hit
wins.
-/

namespace DataContract

-- Powers are those of the core library, whatever algebra is in scope where they are read.
attribute [local instance (high)] instPowNat

namespace Binary64

/-- A positive decimal `digits * 10 ^ exponent`. -/
structure Digits where
  digits : Nat
  exponent : Int
deriving DecidableEq, Repr

/-- Twice-doubled bounds of the numbers that round to `x`: the interval in units of a quarter of
the last mantissa bit. -/
def roundingBounds (x : Binary64) : Nat × Nat :=
  let below := if x.mantissa = 2 ^ (52 : Nat) && x.exponent > minExponent then 1 else 2
  (4 * x.mantissa - below, 4 * x.mantissa + 2)

/-- `num / den` is at least `10 ^ exponent`. -/
def reaches (num den : Nat) (exponent : Int) : Bool :=
  if exponent ≥ 0 then decide (den * 10 ^ exponent.toNat ≤ num)
  else decide (den ≤ num * 10 ^ (-exponent).toNat)

/-- The exponent of the leading decimal digit of a positive fraction. -/
def leadingExponent (num den : Nat) : Int :=
  let guess : Int :=
    (((Nat.log2 num : Int) - (Nat.log2 den : Int) - 1) * 30103) / 100000 - 1
  if reaches num den (guess + 3) then guess + 3
  else if reaches num den (guess + 2) then guess + 2
  else if reaches num den (guess + 1) then guess + 1
  else guess

/-- The number `digits * 10 ^ exponent` as a fraction. -/
def Digits.fraction (d : Digits) : Nat × Nat :=
  if d.exponent ≥ 0 then (d.digits * 10 ^ d.exponent.toNat, 1)
  else (d.digits, 10 ^ (-d.exponent).toNat)

/-- The decimal rounds to `x`; the ends of the interval do so when the mantissa is even. -/
def Digits.readsBackAs (d : Digits) (x : Binary64) : Bool :=
  let (low, high) := x.roundingBounds
  let (n, e) := d.fraction
  let (n, e) := unscale n e (x.exponent - 2)
  if x.mantissa % 2 = 0 then decide (low * e ≤ n) && decide (n ≤ high * e)
  else decide (low * e < n) && decide (n < high * e)

/-- The decimal with the given number of digits that is nearest to `x` among the two neighbours of
`x` that read back as it. -/
def onGrid? (x : Binary64) (leading : Int) (count : Nat) : Option Digits :=
  let exponent := leading + 1 - count
  let (num, den) := x.fraction
  let (n, d) :=
    if exponent ≥ 0 then (num, den * 10 ^ exponent.toNat)
    else (num * 10 ^ (-exponent).toNat, den)
  let lower : Digits := ⟨n / d, exponent⟩
  let upper : Digits := ⟨n / d + 1, exponent⟩
  let twiceRest := 2 * (n % d)
  match lower.readsBackAs x, upper.readsBackAs x with
  | true, true =>
    if twiceRest < d || (twiceRest = d && lower.digits % 2 = 0) then some lower else some upper
  | true, false => some lower
  | false, true => some upper
  | false, false => none

/-- The shortest decimal that reads back as a number that is not zero. -/
def shortest (x : Binary64) : Digits :=
  let (num, den) := x.fraction
  let leading := leadingExponent num den
  let rec search : Nat → Nat → Digits
    | 0, count => (onGrid? x leading count).getD ⟨0, 0⟩
    | left + 1, count =>
      match onGrid? x leading count with
      | some d => d
      | none => search left (count + 1)
  search 16 1

/-- Drops zeros at the end of the digits. -/
def Digits.trimmed (d : Digits) : Digits :=
  let rec drop : Nat → Nat → Int → Digits
    | 0, n, e => ⟨n, e⟩
    | left + 1, n, e =>
      if n ≠ 0 && n % 10 = 0 then drop left (n / 10) (e + 1) else ⟨n, e⟩
  drop 17 d.digits d.exponent

end Binary64

end DataContract
