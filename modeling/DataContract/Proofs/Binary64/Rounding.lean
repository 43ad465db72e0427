import DataContract.Binary64.Shortest
import Mathlib.Algebra.Order.Field.Power
import Mathlib.Algebra.Order.Field.Rat
import Mathlib.Tactic.FieldSimp
import Mathlib.Tactic.Linarith
import Mathlib.Tactic.NormNum
import Mathlib.Tactic.Positivity
import Mathlib.Tactic.Ring

/-!
# Rounding to binary numbers

A fraction that is neither too small nor too large for the format is rounded to a number with 53
mantissa bits (`Binary64.Normal`) from which it is no further away than half of the last bit
(`Binary64.Nearest`, `Binary64.exists_ofFraction?`). What can be written with 53 bits is kept, such
as the natural numbers below `2 ^ 52` (`Binary64.exists_ofNat?`).
-/

namespace DataContract

namespace Binary64

variable {num den n d : ℕ} {x : Binary64} {v w : ℚ}

/-! ## Numbers as fractions -/

/-- The magnitude as a rational number. -/
def toRat (x : Binary64) : ℚ :=
  x.mantissa * 2 ^ x.exponent

/-- Powers of two are positive. -/
theorem two_zpow_pos (e : ℤ) : (0 : ℚ) < 2 ^ e := by positivity

/-- A number times a power of a base, as a fraction. -/
theorem scaled_div {b : ℕ} (hb : 0 < b) (m : ℕ) (e : ℤ) :
    0 < (if e ≥ 0 then (m * b ^ e.toNat, 1) else (m, b ^ (-e).toNat)).2 ∧
      ((if e ≥ 0 then (m * b ^ e.toNat, 1) else (m, b ^ (-e).toNat)).1 : ℚ) /
        (if e ≥ 0 then (m * b ^ e.toNat, 1) else (m, b ^ (-e).toNat)).2 = m * b ^ e := by
  split
  · next h =>
    obtain ⟨k, rfl⟩ := Int.eq_ofNat_of_zero_le h
    exact ⟨Nat.one_pos, by simp⟩
  · next h =>
    obtain ⟨k, rfl⟩ : ∃ k : ℕ, e = -k := ⟨(-e).toNat, by omega⟩
    exact ⟨Nat.pow_pos hb, by simp [zpow_neg, div_eq_mul_inv]⟩

/-- A fraction over a power of a base, as a fraction. -/
theorem unscaled_div {b : ℕ} (hb : 0 < b) (num : ℕ) (hden : 0 < den) (e : ℤ) :
    0 < (if e ≥ 0 then (num, den * b ^ e.toNat) else (num * b ^ (-e).toNat, den)).2 ∧
      ((if e ≥ 0 then (num, den * b ^ e.toNat) else (num * b ^ (-e).toNat, den)).1 : ℚ) /
        (if e ≥ 0 then (num, den * b ^ e.toNat) else (num * b ^ (-e).toNat, den)).2 =
          num / den / b ^ e := by
  split
  · next h =>
    obtain ⟨k, rfl⟩ := Int.eq_ofNat_of_zero_le h
    exact ⟨Nat.mul_pos hden (Nat.pow_pos hb), by simp [div_div]⟩
  · next h =>
    obtain ⟨k, rfl⟩ : ∃ k : ℕ, e = -k := ⟨(-e).toNat, by omega⟩
    exact ⟨hden, by simp [zpow_neg, mul_div_right_comm]⟩

/-- The magnitude has a positive denominator. -/
theorem fraction_den_pos (x : Binary64) : 0 < x.fraction.2 :=
  (scaled_div two_pos x.mantissa x.exponent).1

/-- The magnitude is the quotient of its two parts. -/
theorem fraction_div (x : Binary64) : (x.fraction.1 : ℚ) / x.fraction.2 = x.toRat :=
  (scaled_div two_pos x.mantissa x.exponent).2

/-- Dividing by a power of two keeps the denominator positive. -/
theorem unscale_den_pos (num : ℕ) (hden : 0 < den) (e : ℤ) : 0 < (unscale num den e).2 :=
  (unscaled_div two_pos num hden e).1

/-- A fraction divided by a power of two is that quotient. -/
theorem unscale_div (num : ℕ) (hden : 0 < den) (e : ℤ) :
    ((unscale num den e).1 : ℚ) / (unscale num den e).2 = num / den / 2 ^ e :=
  (unscaled_div two_pos num hden e).2

/-! ## Rounding to an integer -/

/-- The nearest integer is at most a half away, and less than that if it is odd. -/
theorem nearestEven_spec (n : ℕ) (hd : 0 < d) :
    2 * n ≤ 2 * (d * nearestEven n d) + d ∧ 2 * (d * nearestEven n d) ≤ 2 * n + d ∧
      (nearestEven n d % 2 = 1 →
        2 * n < 2 * (d * nearestEven n d) + d ∧ 2 * (d * nearestEven n d) < 2 * n + d) := by
  have hdiv := Nat.div_add_mod n d
  have hmod := Nat.mod_lt n hd
  unfold nearestEven
  dsimp only
  generalize n / d = q at *
  generalize n % d = r at *
  split
  · next h =>
    simp only [Bool.or_eq_true, decide_eq_true_eq, Bool.and_eq_true] at h
    rw [Nat.mul_add, Nat.mul_one]
    generalize d * q = t at *
    omega
  · next h =>
    simp only [Bool.or_eq_true, decide_eq_true_eq, Bool.and_eq_true] at h
    generalize d * q = t at *
    omega

/-- The same of the rational quotient. -/
theorem nearestEven_cast (n : ℕ) (hd : 0 < d) :
    (n : ℚ) / d ≤ nearestEven n d + 1 / 2 ∧ (nearestEven n d : ℚ) ≤ n / d + 1 / 2 ∧
      (nearestEven n d % 2 = 1 →
        (n : ℚ) / d < nearestEven n d + 1 / 2 ∧ (nearestEven n d : ℚ) < n / d + 1 / 2) := by
  have hd' : (0 : ℚ) < d := by exact_mod_cast hd
  obtain ⟨hle, hge, hodd⟩ := nearestEven_spec n hd
  have hle : (2 : ℚ) * n ≤ 2 * (d * nearestEven n d) + d := by exact_mod_cast hle
  have hge : (2 : ℚ) * (d * nearestEven n d) ≤ 2 * n + d := by exact_mod_cast hge
  have hn : (n : ℚ) = n / d * d := (div_mul_cancel₀ _ hd'.ne').symm
  refine ⟨?_, ?_, fun h => ?_⟩
  · rw [div_le_iff₀ hd']
    linarith
  · rw [← sub_le_iff_le_add, le_div_iff₀ hd']
    linarith
  · obtain ⟨hlt, hgt⟩ := hodd h
    have hlt : (2 : ℚ) * n < 2 * (d * nearestEven n d) + d := by exact_mod_cast hlt
    have hgt : (2 : ℚ) * (d * nearestEven n d) < 2 * n + d := by exact_mod_cast hgt
    constructor
    · rw [div_lt_iff₀ hd']
      linarith
    · rw [← sub_lt_iff_lt_add, lt_div_iff₀ hd']
      linarith

/-! ## The exponent of a fraction -/

/-- A fraction lies between powers of two that the lengths of its parts tell. -/
theorem two_zpow_lt_div (hnum : 0 < num) (hden : 0 < den) :
    (2 : ℚ) ^ ((Nat.log2 num : ℤ) - Nat.log2 den - 1) < num / den ∧
      (num : ℚ) / den < 2 ^ ((Nat.log2 num : ℤ) - Nat.log2 den + 1) := by
  have hden' : (0 : ℚ) < den := by exact_mod_cast hden
  have hnumLow : (2 : ℚ) ^ Nat.log2 num ≤ num := by exact_mod_cast Nat.log2_self_le hnum.ne'
  have hnumHigh : (num : ℚ) < 2 ^ (Nat.log2 num + 1) := by exact_mod_cast Nat.lt_log2_self
  have hdenLow : (2 : ℚ) ^ Nat.log2 den ≤ den := by exact_mod_cast Nat.log2_self_le hden.ne'
  have hdenHigh : (den : ℚ) < 2 ^ (Nat.log2 den + 1) := by exact_mod_cast Nat.lt_log2_self
  generalize Nat.log2 num = a at *
  generalize Nat.log2 den = b at *
  have htwo : (2 : ℚ) ≠ 0 := two_ne_zero
  constructor
  · rw [lt_div_iff₀ hden']
    calc (2 : ℚ) ^ ((a : ℤ) - b - 1) * den
        < 2 ^ ((a : ℤ) - b - 1) * 2 ^ (b + 1) := by gcongr
      _ = 2 ^ a := by
        rw [← zpow_natCast 2 (b + 1), ← zpow_add₀ htwo, ← zpow_natCast 2 a]
        congr 1
        push_cast
        ring
      _ ≤ num := hnumLow
  · rw [div_lt_iff₀ hden']
    calc (num : ℚ) < 2 ^ (a + 1) := hnumHigh
      _ = 2 ^ ((a : ℤ) - b + 1) * 2 ^ b := by
        rw [← zpow_natCast 2 b, ← zpow_add₀ htwo, ← zpow_natCast 2 (a + 1)]
        congr 1
        push_cast
        ring
      _ ≤ 2 ^ ((a : ℤ) - b + 1) * den := by gcongr

/-- Of two neighbouring exponents one gives a quotient of 53 bits. -/
theorem div_two_zpow_bounds {g : ℤ} (hlow : (2 : ℚ) ^ (51 : ℕ) < v / 2 ^ g)
    (hhigh : v / 2 ^ g < 2 ^ (53 : ℕ)) :
    (2 : ℚ) ^ (52 : ℕ) ≤ v / 2 ^ (if v / 2 ^ g < 2 ^ (52 : ℕ) then g - 1 else g) ∧
      v / 2 ^ (if v / 2 ^ g < 2 ^ (52 : ℕ) then g - 1 else g) < 2 ^ (53 : ℕ) := by
  split
  · next h =>
    have hv : v / 2 ^ (g - 1) = 2 * (v / 2 ^ g) := by
      rw [zpow_sub_one₀ two_ne_zero]
      have := (two_zpow_pos g).ne'
      field_simp
    rw [hv]
    constructor <;> linarith
  · next h => exact ⟨not_lt.1 h, hhigh⟩

/-- An integer quotient is below a number exactly if the rational one is. -/
theorem unscale_lt_iff (num : ℕ) (hden : 0 < den) (g : ℤ) (k : ℕ) :
    (unscale num den g).1 / (unscale num den g).2 < k ↔ (num : ℚ) / den / 2 ^ g < k := by
  have hpos := unscale_den_pos num hden g
  rw [← unscale_div num hden, div_lt_iff₀ (by exact_mod_cast hpos), Nat.div_lt_iff_lt_mul hpos]
  exact_mod_cast Iff.rfl

/-- The exponent of a fraction, unless it is too small for the format. -/
theorem exponentFor_eq (hden : 0 < den) :
    exponentFor num den =
      max (if (num : ℚ) / den / 2 ^ ((Nat.log2 num : ℤ) - Nat.log2 den - 52) < 2 ^ (52 : ℕ)
        then (Nat.log2 num : ℤ) - Nat.log2 den - 52 - 1
        else (Nat.log2 num : ℤ) - Nat.log2 den - 52) minExponent := by
  have hlt := unscale_lt_iff num hden ((Nat.log2 num : ℤ) - Nat.log2 den - 52) (2 ^ (52 : ℕ))
  push_cast at hlt
  unfold exponentFor
  dsimp only
  congr 1
  exact if_congr hlt rfl rfl

/-- At the exponent of a fraction that is not too small its quotient has 53 bits. -/
theorem exponentFor_spec (hnum : 0 < num) (hden : 0 < den)
    (hsmall : (2 : ℚ) ^ (-200 : ℤ) ≤ num / den) :
    (2 : ℚ) ^ (52 : ℕ) ≤ num / den / 2 ^ exponentFor num den ∧
      (num : ℚ) / den / 2 ^ exponentFor num den < 2 ^ (53 : ℕ) ∧
      minExponent < exponentFor num den := by
  have htwo : (2 : ℚ) ≠ 0 := two_ne_zero
  obtain ⟨hlow, hhigh⟩ := two_zpow_lt_div hnum hden
  have heq := @exponentFor_eq num den hden
  generalize (Nat.log2 num : ℤ) - Nat.log2 den = k at *
  generalize (num : ℚ) / den = v at *
  have hlow' : (2 : ℚ) ^ (51 : ℕ) < v / 2 ^ (k - 52) := by
    have he : ((51 : ℕ) : ℤ) + (k - 52) = k - 1 := by omega
    rwa [lt_div_iff₀ (two_zpow_pos _), ← zpow_natCast, ← zpow_add₀ htwo, he]
  have hhigh' : v / 2 ^ (k - 52) < 2 ^ (53 : ℕ) := by
    have he : ((53 : ℕ) : ℤ) + (k - 52) = k + 1 := by omega
    rwa [div_lt_iff₀ (two_zpow_pos _), ← zpow_natCast, ← zpow_add₀ htwo, he]
  have hbits := div_two_zpow_bounds hlow' hhigh'
  generalize (if v / 2 ^ (k - 52) < 2 ^ (52 : ℕ) then k - 52 - 1 else k - 52) = e at *
  have hmin : minExponent < e := by
    have hlt : (2 : ℚ) ^ (-200 : ℤ) < 2 ^ (53 + e) := by
      rw [zpow_add₀ htwo, ← div_lt_iff₀ (two_zpow_pos _)]
      refine (div_le_div_of_nonneg_right hsmall (two_zpow_pos e).le).trans_lt ?_
      exact_mod_cast hbits.2
    have := (zpow_lt_zpow_iff_right₀ (by norm_num : (1 : ℚ) < 2)).1 hlt
    simp only [minExponent]
    omega
  rw [heq, max_eq_left hmin.le]
  exact ⟨hbits.1, hbits.2, hmin⟩

/-! ## Rounding -/

/-- A number of 53 mantissa bits that is not as small as numbers of the format can be. -/
structure Normal (x : Binary64) : Prop where
  low : 2 ^ (52 : ℕ) ≤ x.mantissa
  high : x.mantissa < 2 ^ (53 : ℕ)
  exponent : minExponent < x.exponent

/-- Such a number is not zero. -/
theorem Normal.isZero_eq_false (hx : x.Normal) : x.isZero = false := by
  have := hx.low
  rw [isZero, beq_eq_false_iff_ne]
  omega

/-- The rational number is in the interval of those that are rounded to `x`. -/
def Nearest (x : Binary64) (v : ℚ) : Prop :=
  if x.mantissa % 2 = 0 then
    x.roundingBounds.1 ≤ v / 2 ^ (x.exponent - 2) ∧ v / 2 ^ (x.exponent - 2) ≤ x.roundingBounds.2
  else
    x.roundingBounds.1 < v / 2 ^ (x.exponent - 2) ∧ v / 2 ^ (x.exponent - 2) < x.roundingBounds.2

/-- The interval goes two quarters of the last bit up, and one or two down. -/
theorem roundingBounds_cast (hx : 0 < x.mantissa) :
    (x.roundingBounds.1 : ℚ) =
        4 * x.mantissa - (if x.mantissa = 2 ^ (52 : ℕ) ∧ minExponent < x.exponent then 1 else 2) ∧
      (x.roundingBounds.2 : ℚ) = 4 * x.mantissa + 2 := by
  unfold roundingBounds
  dsimp only
  constructor
  · by_cases h : x.mantissa = 2 ^ (52 : ℕ) ∧ minExponent < x.exponent
    · have hb : (decide (x.mantissa = 2 ^ (52 : ℕ)) &&
          decide (x.exponent > minExponent)) = true := by
        simpa using h
      rw [hb, if_pos h, if_pos rfl, Nat.cast_sub (by omega)]
      push_cast
      rfl
    · have hb : ¬ (decide (x.mantissa = 2 ^ (52 : ℕ)) &&
          decide (x.exponent > minExponent)) = true := by
        simpa using h
      rw [if_neg hb, if_neg h, Nat.cast_sub (by omega)]
      push_cast
      rfl
  · push_cast
    rfl

variable {negative : Bool} {e : ℤ}

/-- A quarter of the last bit goes four times into it. -/
theorem div_quarter (v : ℚ) (e : ℤ) : v / 2 ^ (e - 2) = 4 * (v / 2 ^ e) := by
  rw [zpow_sub₀ two_ne_zero]
  have := (two_zpow_pos e).ne'
  field_simp
  norm_num

/-- What is rounded at an exponent to a number of 53 bits is rounded to that number. -/
theorem nearest_of_nearestEven (hd : 0 < d) (hlow : (2 : ℚ) ^ (52 : ℕ) ≤ n / d)
    (hv : v / 2 ^ e = n / d) : Nearest ⟨negative, nearestEven n d, e⟩ v := by
  obtain ⟨hle, hge, hodd⟩ := nearestEven_cast n hd
  have hpos : 0 < nearestEven n d := by
    have : (0 : ℚ) < nearestEven n d := by linarith
    exact_mod_cast this
  obtain ⟨hbelow, habove⟩ := roundingBounds_cast (x := ⟨negative, nearestEven n d, e⟩) hpos
  unfold Nearest
  rw [hbelow, habove, div_quarter, hv]
  dsimp only
  generalize (n : ℚ) / d = u at *
  generalize nearestEven n d = q at *
  -- nothing below the smallest mantissa is rounded up to it at this exponent
  have hfirst (h : q = 2 ^ (52 : ℕ)) : 4 * (q : ℚ) - 1 < 4 * u := by
    rw [h]
    push_cast
    linarith
  split
  · constructor
    · split
      · next h => exact (hfirst h.1).le
      · linarith
    · linarith
  · next hne =>
    obtain ⟨hlt, hgt⟩ := hodd (by omega)
    constructor
    · split
      · next h => exact hfirst h.1
      · linarith
    · linarith

/-- What is rounded to a number of one bit more is rounded to the smallest mantissa at the next
exponent. -/
theorem nearest_of_carry (hd : 0 < d) (hhigh : (n : ℚ) / d < 2 ^ (53 : ℕ))
    (hq : nearestEven n d = 2 ^ (53 : ℕ)) (he : minExponent < e + 1) (hv : v / 2 ^ e = n / d) :
    Nearest ⟨negative, 2 ^ (52 : ℕ), e + 1⟩ v := by
  obtain ⟨-, hge, -⟩ := nearestEven_cast n hd
  obtain ⟨hbelow, habove⟩ :=
    roundingBounds_cast (x := ⟨negative, 2 ^ (52 : ℕ), e + 1⟩) (by positivity)
  have hhalf : v / 2 ^ (e + 1) = n / d / 2 := by
    rw [zpow_add_one₀ two_ne_zero, ← hv, div_div]
  have heven : 2 ^ (52 : ℕ) % 2 = 0 := by decide
  unfold Nearest
  rw [hbelow, habove, div_quarter, hhalf]
  dsimp only
  rw [if_pos heven, if_pos ⟨rfl, he⟩]
  rw [hq] at hge
  push_cast at hge ⊢
  constructor <;> linarith

/-- A quotient of 53 bits is rounded to a number of as many bits, or to the first one of more. -/
theorem nearestEven_bits (hd : 0 < d) (hlow : (2 : ℚ) ^ (52 : ℕ) ≤ n / d)
    (hhigh : (n : ℚ) / d < 2 ^ (53 : ℕ)) :
    2 ^ (52 : ℕ) ≤ nearestEven n d ∧ nearestEven n d ≤ 2 ^ (53 : ℕ) := by
  obtain ⟨hle, hge, -⟩ := nearestEven_cast n hd
  have hlowest : ((2 ^ (52 : ℕ) : ℕ) : ℚ) < nearestEven n d + 1 := by
    push_cast
    linarith
  have hhighest : (nearestEven n d : ℚ) < ((2 ^ (53 : ℕ) : ℕ) : ℚ) + 1 := by
    push_cast
    linarith
  exact ⟨Nat.lt_succ_iff.1 (by exact_mod_cast hlowest),
    Nat.lt_succ_iff.1 (by exact_mod_cast hhighest)⟩

/-- A fraction within a wide range is rounded to a number with 53 mantissa bits. -/
theorem exists_ofFraction? (negative : Bool) (hnum : 0 < num) (hden : 0 < den)
    (hsmall : (2 : ℚ) ^ (-200 : ℤ) ≤ num / den) (hlarge : (num : ℚ) / den < 2 ^ (200 : ℤ)) :
    ∃ x, ofFraction? negative num den = some x ∧ x.negative = negative ∧ x.Normal ∧
      x.Nearest (num / den) := by
  obtain ⟨hlow, hhigh, hmin⟩ := exponentFor_spec hnum hden hsmall
  have hd := unscale_den_pos num hden (exponentFor num den)
  have hv := unscale_div num hden (exponentFor num den)
  have hmax : exponentFor num den < 150 := by
    have hlt : (2 : ℚ) ^ (52 + exponentFor num den) < 2 ^ (200 : ℤ) := by
      rw [zpow_add₀ two_ne_zero]
      refine lt_of_le_of_lt ?_ hlarge
      rw [← le_div_iff₀ (two_zpow_pos _)]
      exact_mod_cast hlow
    have := (zpow_lt_zpow_iff_right₀ (by norm_num : (1 : ℚ) < 2)).1 hlt
    omega
  unfold ofFraction?
  rw [if_neg hnum.ne']
  dsimp only
  generalize exponentFor num den = e at *
  generalize unscale num den e = nd at *
  obtain ⟨n, d⟩ := nd
  rw [← hv] at hlow hhigh
  dsimp only at *
  obtain ⟨hlowBits, hhighBits⟩ := nearestEven_bits hd hlow hhigh
  simp only [minExponent, maxExponent] at *
  by_cases hq : nearestEven n d = 2 ^ (53 : ℕ)
  · rw [if_pos hq]
    refine ⟨⟨negative, 2 ^ (52 : ℕ), e + 1⟩, if_neg (by dsimp only; omega), rfl,
      ⟨le_rfl, Nat.pow_lt_pow_right (by decide) (by decide), by simp only [minExponent]; omega⟩, ?_⟩
    exact nearest_of_carry hd hhigh hq (by simp only [minExponent]; omega) hv.symm
  · rw [if_neg hq]
    refine ⟨⟨negative, nearestEven n d, e⟩, if_neg (by dsimp only; omega), rfl,
      ⟨hlowBits, by dsimp only; omega, hmin⟩, ?_⟩
    exact nearest_of_nearestEven hd hlow hv.symm

/-- The quotient of two numbers is rounded once, if it is within that range. -/
theorem exists_div? {x y : Binary64} (hx : 0 < x.toRat) (hy : 0 < y.toRat)
    (hsmall : (2 : ℚ) ^ (-200 : ℤ) ≤ x.toRat / y.toRat)
    (hlarge : x.toRat / y.toRat < 2 ^ (200 : ℤ)) :
    ∃ z, x.div? y = some z ∧ z.negative = x.negative ∧ z.Normal ∧
      z.Nearest (x.toRat / y.toRat) := by
  have hnum {x : Binary64} (h : 0 < x.toRat) : 0 < x.fraction.1 := by
    refine Nat.pos_of_ne_zero fun hzero => h.ne' ?_
    rw [← fraction_div, hzero, Nat.cast_zero, zero_div]
  have hquotient : ((x.fraction.1 * y.fraction.2 : ℕ) : ℚ) / (x.fraction.2 * y.fraction.1 : ℕ) =
      x.toRat / y.toRat := by
    rw [← x.fraction_div, ← y.fraction_div, div_div_div_eq]
    push_cast
    rfl
  rw [← hquotient] at hsmall hlarge ⊢
  exact exists_ofFraction? x.negative (Nat.mul_pos (hnum hx) y.fraction_den_pos)
    (Nat.mul_pos x.fraction_den_pos (hnum hy)) hsmall hlarge

/-! ## What is rounded to one number -/

/-- The last of 53 bits is a small part of the number. -/
theorem Normal.toRat_bounds (hx : x.Normal) :
    2 ^ (52 : ℕ) * 2 ^ x.exponent ≤ x.toRat ∧ x.toRat < 2 ^ (53 : ℕ) * 2 ^ x.exponent := by
  have hpos := two_zpow_pos x.exponent
  have hlow : (2 : ℚ) ^ (52 : ℕ) ≤ x.mantissa := by exact_mod_cast hx.low
  have hhigh : (x.mantissa : ℚ) < 2 ^ (53 : ℕ) := by exact_mod_cast hx.high
  unfold toRat
  exact ⟨by gcongr, by gcongr⟩

/-- What is rounded to a number is no further away than half of its last bit. -/
theorem Nearest.abs_sub_toRat_le (h : x.Nearest v) (hx : x.Normal) :
    |v - x.toRat| ≤ 2 ^ x.exponent / 2 := by
  have hpos := two_zpow_pos x.exponent
  obtain ⟨hbelow, habove⟩ :=
    roundingBounds_cast (x := x) (Nat.lt_of_lt_of_le (by positivity) hx.low)
  have hbounds : 4 * (x.mantissa : ℚ) - 2 ≤ 4 * (v / 2 ^ x.exponent) ∧
      4 * (v / 2 ^ x.exponent) ≤ 4 * x.mantissa + 2 := by
    unfold Nearest at h
    rw [hbelow, habove, div_quarter] at h
    split at h
    all_goals
      obtain ⟨hlow, hhigh⟩ := h
      constructor
      · split at hlow <;> linarith
      · linarith
  have hv : v = v / 2 ^ x.exponent * 2 ^ x.exponent := (div_mul_cancel₀ _ hpos.ne').symm
  rw [abs_le, toRat]
  constructor <;> nlinarith

/-- Two numbers that are rounded to one are no further apart than its last bit. -/
theorem Nearest.abs_sub_le_of_nearest (hv : x.Nearest v) (hw : x.Nearest w) (hx : x.Normal) :
    |v - w| ≤ 2 ^ x.exponent := by
  have hv := hv.abs_sub_toRat_le hx
  have hw := hw.abs_sub_toRat_le hx
  rw [abs_sub_comm] at hw
  calc |v - w| ≤ |v - x.toRat| + |x.toRat - w| := abs_sub_le v x.toRat w
    _ ≤ 2 ^ x.exponent / 2 + 2 ^ x.exponent / 2 := add_le_add hv hw
    _ = 2 ^ x.exponent := add_halves _

/-- What is rounded to a number of 53 bits is about as large as these bits tell. -/
theorem Nearest.exponent_bounds {j k : ℤ} (h : x.Nearest v) (hx : x.Normal) (hj : (2 : ℚ) ^ j ≤ v)
    (hk : v < 2 ^ k) : j - 54 < x.exponent ∧ x.exponent < k - 51 := by
  have htwo : (1 : ℚ) < 2 := by norm_num
  have hclose := abs_le.1 (h.abs_sub_toRat_le hx)
  obtain ⟨hlow, hhigh⟩ := hx.toRat_bounds
  have hpos := two_zpow_pos x.exponent
  have hbelow : (2 : ℚ) ^ j < 2 ^ (54 + x.exponent) := by
    rw [zpow_add₀ two_ne_zero, show (2 : ℚ) ^ (54 : ℤ) = 2 * 2 ^ (53 : ℕ) by norm_num]
    linarith
  have habove : (2 : ℚ) ^ (51 + x.exponent) < 2 ^ k := by
    rw [zpow_add₀ two_ne_zero, show (2 : ℚ) ^ (51 : ℤ) = 2 ^ (52 : ℕ) / 2 by norm_num]
    linarith
  have hbelow := (zpow_lt_zpow_iff_right₀ htwo).1 hbelow
  have habove := (zpow_lt_zpow_iff_right₀ htwo).1 habove
  omega

/-- Multiples of a number that are less than it apart are the same. -/
theorem eq_of_abs_sub_lt {a b : ℕ} {g : ℚ} (h : |a * g - b * g| < g) : a = b := by
  have hg : 0 < g := (abs_nonneg _).trans_lt h
  have hclose := abs_lt.1 h
  have hup : (a : ℚ) < (b + 1 : ℕ) := by
    push_cast
    nlinarith [hclose.2]
  have hdown : (b : ℚ) < (a + 1 : ℕ) := by
    push_cast
    nlinarith [hclose.1]
  have hup := Nat.cast_lt.1 hup
  have hdown := Nat.cast_lt.1 hdown
  omega

/-- A natural number of at most 52 bits, followed by zeros, is kept. -/
theorem exists_ofNat? {j : ℕ} (hn : 0 < n) (hlt : n < 2 ^ (52 : ℕ)) (hj : j ≤ 100) :
    ∃ x, ofNat? (n * 2 ^ j) = some x ∧ x.negative = false ∧ x.Normal ∧ x.toRat = n * 2 ^ j := by
  have hpower : (0 : ℚ) < 2 ^ j := by positivity
  have hone : (1 : ℚ) ≤ n * 2 ^ j := by exact_mod_cast Nat.mul_pos hn (Nat.two_pow_pos j)
  have hlt' : (n : ℚ) + 1 ≤ 2 ^ (52 : ℕ) := by exact_mod_cast hlt
  have hlarge : (n : ℚ) * 2 ^ j < 2 ^ (200 : ℤ) :=
    calc (n : ℚ) * 2 ^ j ≤ 2 ^ (52 : ℕ) * 2 ^ (100 : ℕ) := by
          have : (2 : ℚ) ^ j ≤ 2 ^ (100 : ℕ) := pow_le_pow_right₀ (by norm_num) hj
          gcongr
          linarith
      _ < 2 ^ (200 : ℤ) := by norm_num
  have hcast : ((n * 2 ^ j : ℕ) : ℚ) / (1 : ℕ) = n * 2 ^ j := by
    push_cast
    rw [div_one]
  obtain ⟨x, hx, hnegative, hnormal, hnearest⟩ :=
    exists_ofFraction? false (Nat.mul_pos hn (Nat.two_pow_pos j)) Nat.one_pos
      (by rw [hcast]; exact le_trans (by norm_num) hone) (by rwa [hcast])
  rw [hcast] at hnearest
  refine ⟨x, hx, hnegative, hnormal, ?_⟩
  have hclose := hnearest.abs_sub_toRat_le hnormal
  have hbit := two_zpow_pos x.exponent
  -- the last bit is not above the zeros, so both numbers are whole multiples of it
  have hexponent : x.exponent ≤ j := by
    have hlast : (2 : ℚ) ^ x.exponent < 2 ^ ((j : ℤ) + 1) := by
      have := hnormal.toRat_bounds.1
      have := (abs_le.1 hclose).1
      rw [zpow_add_one₀ two_ne_zero, zpow_natCast]
      nlinarith
    have := (zpow_lt_zpow_iff_right₀ (by norm_num : (1 : ℚ) < 2)).1 hlast
    omega
  obtain ⟨k, hk⟩ : ∃ k : ℕ, (j : ℤ) = k + x.exponent := ⟨(j - x.exponent).toNat, by omega⟩
  have hscale : (n : ℚ) * 2 ^ j = (n * 2 ^ k : ℕ) * 2 ^ x.exponent := by
    rw [← zpow_natCast (2 : ℚ) j, hk, zpow_add₀ two_ne_zero, zpow_natCast]
    push_cast
    ring
  rw [hscale, toRat] at hclose
  rw [hscale, toRat, eq_of_abs_sub_lt (hclose.trans_lt (half_lt_self hbit))]

end Binary64

end DataContract
