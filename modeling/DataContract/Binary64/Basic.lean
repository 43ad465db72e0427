/-!
# Binary floating-point numbers

The finite numbers of the 64-bit binary format, as an integer mantissa of at most 53 bits times a
power of two that is not below `2 ^ -1074`. Arithmetic is exact rational arithmetic followed by one
rounding to the nearest such number, a tie going to the even mantissa.
-/

namespace DataContract

-- Powers are those of the core library, whatever algebra is in scope where they are read.
attribute [local instance (high)] instPowNat

/-- The number `± mantissa * 2 ^ exponent`. -/
structure Binary64 where
  negative : Bool
  mantissa : Nat
  exponent : Int
deriving DecidableEq, Repr

namespace Binary64

/-- The smallest exponent of the format. -/
def minExponent : Int := -1074

/-- The largest exponent of the format. -/
def maxExponent : Int := 971

/-- Positive zero. -/
def zero : Binary64 := ⟨false, 0, minExponent⟩

/-- The number is a zero of either sign. -/
def isZero (x : Binary64) : Bool :=
  x.mantissa == 0

/-- Changes the sign. -/
def neg (x : Binary64) : Binary64 :=
  { x with negative := !x.negative }

/-- The magnitude as a fraction. -/
def fraction (x : Binary64) : Nat × Nat :=
  if x.exponent ≥ 0 then (x.mantissa * 2 ^ x.exponent.toNat, 1)
  else (x.mantissa, 2 ^ (-x.exponent).toNat)

/-- The numerator and denominator of a fraction divided by a power of two. -/
def unscale (num den : Nat) (exponent : Int) : Nat × Nat :=
  if exponent ≥ 0 then (num, den * 2 ^ exponent.toNat)
  else (num * 2 ^ (-exponent).toNat, den)

/-- The quotient rounded to the nearest integer, a half to the even neighbour. -/
def nearestEven (num den : Nat) : Nat :=
  let q := num / den
  let r := num % den
  if 2 * r > den || (2 * r = den && q % 2 = 1) then q + 1 else q

/-- The exponent at which the quotient of a fraction has 53 bits, but not below the smallest. -/
def exponentFor (num den : Nat) : Int :=
  let guess : Int := (Nat.log2 num : Int) - (Nat.log2 den : Int) - 52
  let (n, d) := unscale num den guess
  let exact := if n / d < 2 ^ (52 : Nat) then guess - 1 else guess
  max exact minExponent

/-- The nearest number to a positive fraction; nothing if it is beyond the largest. -/
def ofFraction? (negative : Bool) (num den : Nat) : Option Binary64 :=
  if num = 0 then some ⟨negative, 0, minExponent⟩
  else
    let exponent := exponentFor num den
    let (n, d) := unscale num den exponent
    let mantissa := nearestEven n d
    let (mantissa, exponent) :=
      if mantissa = 2 ^ (53 : Nat) then (2 ^ (52 : Nat), exponent + 1) else (mantissa, exponent)
    if exponent > maxExponent then none else some ⟨negative, mantissa, exponent⟩

/-- The nearest number to a natural number. -/
def ofNat? (n : Nat) : Option Binary64 :=
  ofFraction? false n 1

/-- The magnitude times that of `y`, with the sign of `x`. -/
def mul? (x y : Binary64) : Option Binary64 :=
  let (a, b) := x.fraction
  let (c, d) := y.fraction
  ofFraction? x.negative (a * c) (b * d)

/-- The magnitude divided by that of `y`, with the sign of `x`. -/
def div? (x y : Binary64) : Option Binary64 :=
  let (a, b) := x.fraction
  let (c, d) := y.fraction
  ofFraction? x.negative (a * d) (b * c)

end Binary64

end DataContract
