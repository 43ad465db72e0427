import DataContract.Decimal.Basic
import Mathlib.Algebra.Order.Floor.Ring
import Mathlib.Data.Rat.Floor
import Mathlib.Tactic.FieldSimp
import Mathlib.Tactic.Linarith
import Mathlib.Tactic.Positivity
import Mathlib.Tactic.Push
import Mathlib.Tactic.Ring

/-!
# Decimals as rational numbers

A decimal stands for a rational number, `Decimal.toRat`. Equality and order of decimals are those of
the numbers they stand for, whatever the scales and the sign of a zero, and the two ways of rounding
to a whole number are the ceiling and the floor. Everything that is proved about ranges of numbers
rests on these readings and not on coefficients and scales.
-/

namespace DataContract

namespace Decimal

/-- The number that a decimal stands for. -/
def toRat (a : Decimal) : ℚ :=
  a.coefficient / 10 ^ a.scale

/-- Powers of ten are positive. -/
theorem ten_pow_pos (n : Nat) : (0 : ℚ) < 10 ^ n := by positivity

/-- The number over the common denominator of two decimals. -/
theorem scaledTo_cast (a b : Decimal) :
    (a.scaledTo b : ℚ) = a.toRat * (10 ^ a.scale * 10 ^ b.scale) := by
  have ha := (ten_pow_pos a.scale).ne'
  simp only [scaledTo, toRat, Int.cast_mul, Int.cast_pow, Int.cast_ofNat]
  field_simp

/-- Coefficients over the common denominator are equal where the numbers are. -/
theorem scaledTo_eq_iff (a b : Decimal) : a.scaledTo b = b.scaledTo a ↔ a.toRat = b.toRat := by
  have hab : (0 : ℚ) < 10 ^ a.scale * 10 ^ b.scale := mul_pos (ten_pow_pos _) (ten_pow_pos _)
  rw [← @Int.cast_inj ℚ, scaledTo_cast, scaledTo_cast, mul_comm ((10 : ℚ) ^ b.scale)]
  exact mul_left_inj' hab.ne'

/-- Coefficients over the common denominator are in the order of the numbers. -/
theorem scaledTo_le_iff (a b : Decimal) : a.scaledTo b ≤ b.scaledTo a ↔ a.toRat ≤ b.toRat := by
  have hab : (0 : ℚ) < 10 ^ a.scale * 10 ^ b.scale := mul_pos (ten_pow_pos _) (ten_pow_pos _)
  rw [← @Int.cast_le ℚ, scaledTo_cast, scaledTo_cast, mul_comm ((10 : ℚ) ^ b.scale)]
  exact mul_le_mul_iff_left₀ hab

/-- Decimals are equal exactly if they stand for the same number. -/
theorem equal_iff {a b : Decimal} : a.equal b = true ↔ a.toRat = b.toRat := by
  simp [equal, scaledTo_eq_iff]

/-- The order of decimals is that of the numbers. -/
theorem le_iff {a b : Decimal} : a.le b = true ↔ a.toRat ≤ b.toRat := by
  simp [le, scaledTo_le_iff]

/-- The strict order of decimals is that of the numbers. -/
theorem lt_iff {a b : Decimal} : a.lt b = true ↔ a.toRat < b.toRat := by
  rw [← not_le, ← scaledTo_le_iff, lt, decide_eq_true_iff, not_le]

/-! ## Whole numbers -/

/-- Up to the sign, the number is its magnitude over the power of ten. -/
theorem toRat_eq (a : Decimal) :
    a.toRat = if a.negative then -((a.magnitude : ℚ) / 10 ^ a.scale)
      else (a.magnitude : ℚ) / 10 ^ a.scale := by
  unfold toRat coefficient
  split <;> simp [neg_div]

/-- A quotient of natural numbers rounded down is the floor of the rational quotient. -/
theorem floor_div (n d : Nat) : ((n / d : Nat) : ℚ) = (⌊(n : ℚ) / d⌋ : ℤ) := by
  rw [Rat.floor_natCast_div_natCast]
  norm_cast

/-- A quotient of natural numbers rounded up is the ceiling of the rational quotient. -/
theorem ceil_div (n : Nat) {d : Nat} (hd : 0 < d) :
    (divideUp n d : ℚ) = (⌈(n : ℚ) / d⌉ : ℤ) := by
  have hd' : (0 : ℚ) < d := by exact_mod_cast hd
  have hn : (n : ℚ) = d * (n / d : Nat) + (n % d : Nat) := by
    exact_mod_cast (Nat.div_add_mod n d).symm
  have hr : ((n % d : Nat) : ℚ) < d := by exact_mod_cast Nat.mod_lt n hd
  have hceil : ⌈(n : ℚ) / d⌉ = (divideUp n d : ℤ) := by
    unfold divideUp
    rw [Int.ceil_eq_iff, lt_div_iff₀ hd', div_le_iff₀ hd']
    generalize n / d = q at hn ⊢
    split
    · next h =>
      rw [h] at hn
      push_cast at hn ⊢
      constructor <;> nlinarith
    · next h =>
      have hpos : (0 : ℚ) < (n % d : Nat) := by exact_mod_cast Nat.pos_of_ne_zero h
      push_cast at hn hr hpos ⊢
      constructor <;> nlinarith
  rw [hceil]
  norm_cast

/-- Rounding up gives the ceiling. -/
theorem toRat_ceil (a : Decimal) : a.ceil.toRat = (⌈a.toRat⌉ : ℤ) := by
  have hup := ceil_div a.magnitude (d := 10 ^ a.scale) (by positivity)
  have hdown := floor_div a.magnitude (10 ^ a.scale)
  push_cast at hup hdown
  rw [toRat_eq, toRat_eq a]
  simp only [ceil, toWhole, pow_zero, div_one]
  cases a.negative with
  | false => simpa using hup
  | true => simp [Int.ceil_neg, ← hdown]

/-- Rounding down gives the floor. -/
theorem toRat_floor (a : Decimal) : a.floor.toRat = (⌊a.toRat⌋ : ℤ) := by
  have hup := ceil_div a.magnitude (d := 10 ^ a.scale) (by positivity)
  have hdown := floor_div a.magnitude (10 ^ a.scale)
  push_cast at hup hdown
  rw [toRat_eq, toRat_eq a]
  simp only [floor, toWhole, pow_zero, div_one]
  cases a.negative with
  | false => simp [← hdown]
  | true => simp [Int.floor_neg, ← hup]

/-- A decimal of scale zero is whole. -/
theorem isWhole_of_scale {a : Decimal} (h : a.scale = 0) : a.isWhole = true := by
  simp [isWhole, h, Nat.mod_one]

/-- Rounding up does not go below the number. -/
theorem le_toRat_ceil (a : Decimal) : a.toRat ≤ a.ceil.toRat := by
  rw [toRat_ceil]
  exact Int.le_ceil _

/-- Rounding down does not go above the number. -/
theorem toRat_floor_le (a : Decimal) : a.floor.toRat ≤ a.toRat := by
  rw [toRat_floor]
  exact Int.floor_le _

@[simp] theorem isWhole_ceil (a : Decimal) : a.ceil.isWhole = true :=
  isWhole_of_scale rfl

@[simp] theorem isWhole_floor (a : Decimal) : a.floor.isWhole = true :=
  isWhole_of_scale rfl

/-- The number has no fraction exactly when it stands for an integer. -/
theorem isWhole_iff {a : Decimal} : a.isWhole = true ↔ ∃ n : ℤ, a.toRat = n := by
  have hd := (ten_pow_pos a.scale).ne'
  have hdvd : a.isWhole = true ↔ ((10 : ℤ) ^ a.scale) ∣ a.coefficient := by
    rw [isWhole, beq_iff_eq, ← Nat.dvd_iff_mod_eq_zero, ← Int.natCast_dvd_natCast]
    unfold coefficient
    split <;> simp
  rw [hdvd]
  constructor
  · rintro ⟨n, hn⟩
    refine ⟨n, ?_⟩
    rw [toRat, hn]
    push_cast
    field_simp
  · rintro ⟨n, hn⟩
    refine ⟨n, ?_⟩
    rw [toRat, div_eq_iff hd] at hn
    have : (a.coefficient : ℚ) = ((10 ^ a.scale * n : ℤ) : ℚ) := by rw [hn]; push_cast; ring
    exact_mod_cast this

/-- Equal numbers are whole together. -/
theorem isWhole_congr {a b : Decimal} (h : a.equal b = true) : a.isWhole = b.isWhole := by
  rw [Bool.eq_iff_iff, isWhole_iff, isWhole_iff, equal_iff.1 h]

/-- Equal decimals are below the same ones. -/
theorem lt_congr_left {a b c : Decimal} (h : a.equal b = true) : a.lt c = b.lt c := by
  rw [Bool.eq_iff_iff, lt_iff, lt_iff, equal_iff.1 h]

/-- Equal decimals are above the same ones. -/
theorem lt_congr_right {a b c : Decimal} (h : a.equal b = true) : c.lt a = c.lt b := by
  rw [Bool.eq_iff_iff, lt_iff, lt_iff, equal_iff.1 h]

/-- Equality of decimals is symmetric. -/
theorem equal_symm {a b : Decimal} (h : a.equal b = true) : b.equal a = true :=
  equal_comm a b ▸ h

/-- Equality of decimals is transitive. -/
theorem equal_trans {a b c : Decimal} (h : a.equal b = true) (h' : b.equal c = true) :
    a.equal c = true :=
  equal_iff.2 ((equal_iff.1 h).trans (equal_iff.1 h'))

end Decimal

end DataContract
