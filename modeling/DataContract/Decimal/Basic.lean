/-!
# Decimal numbers

A decimal is a sign, a magnitude of at most 96 bits and a power of ten to divide by, the scale, of
at most 28. Numbers never pass through binary fractions. The scale is kept, since it is printed, but
it does not matter for comparison: `1.10` and `1.1` are equal, and order is the order of the
rational numbers they stand for.

A zero may have the negative sign. It is equal to the other zero and is printed with its sign. None
is ever read from plain notation; rounding a negative number to zero gives one, and the normal form
gives the sign up.
-/

namespace DataContract

-- Powers are those of the core library, whatever algebra is in scope where they are read.
attribute [local instance (high)] instPowNat

/-- The number `± magnitude / 10 ^ scale`. -/
structure Decimal where
  negative : Bool
  magnitude : Nat
  scale : Nat
  scale_le : scale ≤ 28
  magnitude_lt : magnitude < 2 ^ (96 : Nat)

namespace Decimal

/-- The magnitude with its sign. -/
def coefficient (a : Decimal) : Int :=
  if a.negative then -(a.magnitude : Int) else a.magnitude

/-- The decimal of these parts, if they are small enough. -/
def ofSigned? (negative : Bool) (magnitude scale : Nat) : Option Decimal :=
  if h : scale ≤ 28 ∧ magnitude < 2 ^ (96 : Nat) then
    some ⟨negative, magnitude, scale, h.1, h.2⟩
  else none

/-- The decimal with this coefficient, if it is small enough; zero is not negative. -/
def ofParts? (coefficient : Int) (scale : Nat) : Option Decimal :=
  ofSigned? (decide (coefficient < 0)) coefficient.natAbs scale

/-- The number zero. -/
def zero : Decimal := ⟨false, 0, 0, by decide, by decide⟩

/-- The number one. -/
def one : Decimal := ⟨false, 1, 0, by decide, by decide⟩

/-- The number one thousand. -/
def thousand : Decimal := ⟨false, 1000, 0, by decide, by decide⟩

instance : Inhabited Decimal := ⟨zero⟩

/-- The coefficient given to `ofParts?` is the one of the decimal it gives. -/
theorem coefficient_of_ofParts? {c : Int} {scale : Nat} {a : Decimal}
    (h : ofParts? c scale = some a) : a.coefficient = c ∧ a.scale = scale := by
  unfold ofParts? ofSigned? at h
  split at h
  · cases h
    refine ⟨?_, rfl⟩
    simp only [coefficient, decide_eq_true_eq]
    split <;> omega
  · cases h

/-! ## Comparison -/

/-- The numerator of `a` over the common denominator of `a` and `b`. -/
def scaledTo (a b : Decimal) : Int :=
  a.coefficient * 10 ^ b.scale

/-- Compares the numbers, whatever their scales. -/
def compare (a b : Decimal) : Ordering :=
  Ord.compare (a.scaledTo b) (b.scaledTo a)

/-- The numbers are equal. -/
def equal (a b : Decimal) : Bool :=
  a.scaledTo b == b.scaledTo a

/-- The first number is at most the second. -/
def le (a b : Decimal) : Bool :=
  decide (a.scaledTo b ≤ b.scaledTo a)

/-- The first number is below the second. -/
def lt (a b : Decimal) : Bool :=
  decide (a.scaledTo b < b.scaledTo a)

instance : BEq Decimal := ⟨equal⟩

@[simp] theorem equal_self (a : Decimal) : a.equal a = true := by
  simp [equal]

/-- Equality of numbers is symmetric. -/
theorem equal_comm (a b : Decimal) : a.equal b = b.equal a := by
  simp only [equal]
  exact Bool.eq_iff_iff.2 ⟨fun h => by simpa using (beq_iff_eq.1 h).symm,
    fun h => by simpa using (beq_iff_eq.1 h).symm⟩

/-! ## Whole numbers -/

/-- The number has no fraction. -/
def isWhole (a : Decimal) : Bool :=
  a.magnitude % 10 ^ a.scale == 0

/-- The quotient rounded up. -/
def divideUp (n d : Nat) : Nat :=
  if n % d = 0 then n / d else n / d + 1

/-- Rounding a quotient up never goes beyond the numerator. -/
theorem divideUp_le (n d : Nat) : divideUp n d ≤ n := by
  unfold divideUp
  split
  · exact Nat.div_le_self n d
  · next h =>
    have hd : d ≠ 1 := fun hd => h (by rw [hd, Nat.mod_one])
    have hn : 0 < n := Nat.pos_of_ne_zero fun hn => h (by rw [hn, Nat.zero_mod])
    by_cases h0 : d = 0
    · simp [h0] at h ⊢
      omega
    · exact Nat.div_lt_self hn (by omega)

/-- The number rounded to a whole one, towards zero if `inward` holds and away from it otherwise.
The sign is kept, also of a number that becomes zero. -/
def toWhole (a : Decimal) (inward : Bool) : Decimal :=
  ⟨a.negative, if inward then a.magnitude / 10 ^ a.scale else divideUp a.magnitude (10 ^ a.scale),
    0, by decide, by
      split
      · exact Nat.lt_of_le_of_lt (Nat.div_le_self _ _) a.magnitude_lt
      · exact Nat.lt_of_le_of_lt (divideUp_le _ _) a.magnitude_lt⟩

/-- The largest whole number that is not above the number. -/
def floor (a : Decimal) : Decimal :=
  a.toWhole (!a.negative)

/-- The smallest whole number that is not below the number. -/
def ceil (a : Decimal) : Decimal :=
  a.toWhole a.negative

/-- The integer part, if it fits a signed word of 64 bits. -/
def toWord? (a : Decimal) : Option Int :=
  let n := a.coefficient.tdiv (10 ^ a.scale)
  if Int64.minValue.toInt ≤ n ∧ n ≤ Int64.maxValue.toInt then some n else none

/-! ## Normal form -/

/-- Drops zeros at the end of the fraction. -/
def dropZeros : Nat → Nat → Nat × Nat
  | 0, n => (n, 0)
  | scale + 1, n => if n % 10 = 0 then dropZeros scale (n / 10) else (n, scale + 1)

/-- Dropping zeros makes neither the scale nor the magnitude larger, so the normal form is a
decimal. -/
theorem dropZeros_bounds (scale n : Nat) :
    (dropZeros scale n).2 ≤ scale ∧ (dropZeros scale n).1 ≤ n := by
  induction scale generalizing n with
  | zero => exact ⟨Nat.le_refl _, Nat.le_refl _⟩
  | succ scale ih =>
    unfold dropZeros
    split
    · have h := ih (n / 10)
      exact ⟨Nat.le_succ_of_le h.1, Nat.le_trans h.2 (Nat.div_le_self _ _)⟩
    · exact ⟨Nat.le_refl _, Nat.le_refl _⟩

/-- The same number without zeros at the end of its fraction, and without the sign of a zero. -/
def normalize (a : Decimal) : Decimal :=
  ⟨a.negative && a.magnitude != 0, (dropZeros a.scale a.magnitude).1,
    (dropZeros a.scale a.magnitude).2, Nat.le_trans (dropZeros_bounds _ _).1 a.scale_le,
    Nat.lt_of_le_of_lt (dropZeros_bounds _ _).2 a.magnitude_lt⟩

/-! ## Sums -/

/-- The quotient rounded to the nearest integer, a half to the even neighbour. -/
def divideRounded (n : Nat) (d : Nat) : Nat :=
  let q := n / d
  let r := n % d
  if 2 * r > d || (2 * r = d && q % 2 = 1) then q + 1 else q

/-- `c / 10 ^ scale` at the largest scale of at most `scale` at which the rounded coefficient
fits. -/
def fit? (c : Int) (scale : Nat) : Nat → Option Decimal
  | 0 => ofParts? (c.sign * divideRounded c.natAbs (10 ^ scale)) 0
  | kept + 1 =>
    match ofParts? (c.sign * divideRounded c.natAbs (10 ^ (scale - (kept + 1)))) (kept + 1) with
    | some d => some d
    | none => fit? c scale kept

/-- The sum, rounded only as far as needed to fit; nothing if its integer part does not fit. -/
def add? (a b : Decimal) : Option Decimal :=
  let scale := max a.scale b.scale
  let c := a.coefficient * 10 ^ (scale - a.scale) + b.coefficient * 10 ^ (scale - b.scale)
  fit? c scale scale

/-- The number with the other sign. -/
def neg (a : Decimal) : Decimal :=
  ⟨!a.negative, a.magnitude, a.scale, a.scale_le, a.magnitude_lt⟩

/-- The difference, rounded like a sum. -/
def sub? (a b : Decimal) : Option Decimal :=
  a.add? b.neg

/-! ## Text -/

/-- The decimal digits of a natural number. -/
def digitChars (n : Nat) : List Char :=
  Nat.toDigits 10 n

/-- The digits with zeros in front up to the given width. -/
def padDigits (width : Nat) (n : Nat) : List Char :=
  let ds := digitChars n
  List.replicate (width - ds.length) '0' ++ ds

/-- The number in plain notation with exactly `scale` fraction digits. -/
def chars (a : Decimal) : List Char :=
  let sign := if a.negative then ['-'] else []
  if a.scale = 0 then sign ++ digitChars a.magnitude
  else sign ++ digitChars (a.magnitude / 10 ^ a.scale) ++
    '.' :: padDigits a.scale (a.magnitude % 10 ^ a.scale)

/-- The number in plain notation with exactly `scale` fraction digits. -/
def text (a : Decimal) : String :=
  String.ofList a.chars

end Decimal

end DataContract
