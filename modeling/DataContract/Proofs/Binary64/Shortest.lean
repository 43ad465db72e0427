import DataContract.Proofs.Binary64.Rounding
import Mathlib.Algebra.Order.Floor.Semifield

/-!
# Short decimals come back

A decimal of at most fifteen digits is what is written for the binary number that it is rounded to
(`Binary64.trimmed_shortest`). No other decimal on a grid of fifteen digits is rounded to that
number, as its last bit is finer than the grid (`Binary64.eq_of_nearest`), and the search for the
shortest decimal gets at the latest to that grid, where the decimal is a neighbour of the number.
-/

namespace DataContract

namespace Binary64

variable {x : Binary64} {d : Digits} {num den k m : ℕ} {leading i : ℤ} {v w : ℚ}

/-! ## Decimal digits -/

/-- The number that decimal digits stand for. -/
def Digits.toRat (d : Digits) : ℚ :=
  d.digits * 10 ^ d.exponent

/-- Powers of ten are positive. -/
theorem ten_zpow_pos (i : ℤ) : (0 : ℚ) < 10 ^ i := by positivity

/-- Zeros may be written out of a power of ten. -/
theorem ten_zpow_eq {i j : ℤ} (n : ℕ) (h : i = n + j) : (10 : ℚ) ^ i = 10 ^ n * 10 ^ j := by
  rw [h, zpow_add₀ (by norm_num), zpow_natCast]

/-- Decimal digits have a positive denominator. -/
theorem Digits.fraction_den_pos (d : Digits) : 0 < d.fraction.2 :=
  (scaled_div (by decide) d.digits d.exponent).1

/-- Decimal digits are the quotient of the two parts of their fraction. -/
theorem Digits.fraction_div (d : Digits) : (d.fraction.1 : ℚ) / d.fraction.2 = d.toRat :=
  (scaled_div (by decide) d.digits d.exponent).2

/-- Digits read back as the number that they are rounded to. -/
theorem readsBackAs_iff : d.readsBackAs x = true ↔ x.Nearest d.toRat := by
  have hpos := unscale_den_pos d.fraction.1 d.fraction_den_pos (x.exponent - 2)
  have hdiv := unscale_div d.fraction.1 d.fraction_den_pos (x.exponent - 2)
  rw [d.fraction_div] at hdiv
  unfold Digits.readsBackAs Nearest
  dsimp only
  rw [← hdiv]
  generalize unscale d.fraction.1 d.fraction.2 (x.exponent - 2) = quotient at *
  have hpos' : (0 : ℚ) < quotient.2 := by exact_mod_cast hpos
  split
  · rw [Bool.and_eq_true, decide_eq_true_eq, decide_eq_true_eq, le_div_iff₀ hpos',
      div_le_iff₀ hpos']
    exact_mod_cast Iff.rfl
  · rw [Bool.and_eq_true, decide_eq_true_eq, decide_eq_true_eq, lt_div_iff₀ hpos',
      div_lt_iff₀ hpos']
    exact_mod_cast Iff.rfl

/-! ## The leading digit -/

/-- The test for the leading digit compares with a power of ten. -/
theorem reaches_iff (hden : 0 < den) : reaches num den i = true ↔ (10 : ℚ) ^ i ≤ num / den := by
  have hden' : (0 : ℚ) < den := by exact_mod_cast hden
  unfold reaches
  rw [le_div_iff₀ hden']
  split
  · next h =>
    obtain ⟨k, rfl⟩ := Int.eq_ofNat_of_zero_le h
    rw [decide_eq_true_eq, mul_comm]
    exact_mod_cast Iff.rfl
  · next h =>
    obtain ⟨k, rfl⟩ : ∃ k : ℕ, i = -k := ⟨(-i).toNat, by omega⟩
    have hten : (0 : ℚ) < 10 ^ k := by positivity
    rw [decide_eq_true_eq, neg_neg, Int.toNat_natCast, zpow_neg, zpow_natCast, ← div_eq_inv_mul,
      div_le_iff₀ hten]
    exact_mod_cast Iff.rfl

/-- What is guessed for numbers of 53 bits over a power of two is the leading exponent or at most
three below it. -/
theorem guess_bounds (hk : k < 71) :
    reaches (2 ^ (52 : ℕ)) (2 ^ k) ((((52 : ℕ) : ℤ) - k - 1) * 30103 / 100000 - 1) = true ∧
      reaches (2 ^ (53 : ℕ)) (2 ^ k)
        ((((52 : ℕ) : ℤ) - k - 1) * 30103 / 100000 - 1 + 4) = false := by
  have hall : (List.range 71).all (fun k =>
      reaches (2 ^ (52 : ℕ)) (2 ^ k) ((((52 : ℕ) : ℤ) - k - 1) * 30103 / 100000 - 1) &&
        !reaches (2 ^ (53 : ℕ)) (2 ^ k)
          ((((52 : ℕ) : ℤ) - k - 1) * 30103 / 100000 - 1 + 4)) = true := rfl
  have hbounds := List.all_eq_true.1 hall k (List.mem_range.2 hk)
  rwa [Bool.and_eq_true, Bool.not_eq_true'] at hbounds

/-- The power of ten of the leading digit is below the number, and the next one is not. -/
theorem leadingExponent_spec (hx : x.Normal) (hlow : -71 < x.exponent) (hhigh : x.exponent < 0) :
    (10 : ℚ) ^ leadingExponent x.fraction.1 x.fraction.2 ≤ x.toRat ∧
      x.toRat < 10 ^ (leadingExponent x.fraction.1 x.fraction.2 + 1) := by
  obtain ⟨k, hk⟩ : ∃ k : ℕ, x.exponent = -k := ⟨(-x.exponent).toNat, by omega⟩
  have hfraction : x.fraction = (x.mantissa, 2 ^ k) := by
    rw [fraction, if_neg (by omega), hk, neg_neg, Int.toNat_natCast]
  have hlog : Nat.log2 x.mantissa = 52 :=
    (Nat.log2_eq_iff (Nat.pos_of_ne_zero (by have := hx.low; omega)).ne').2 ⟨hx.low, hx.high⟩
  obtain ⟨hguess, hbeyond⟩ := guess_bounds (k := k) (by omega)
  have hpos : 0 < 2 ^ k := by positivity
  have hlowest : (10 : ℚ) ^ ((((52 : ℕ) : ℤ) - k - 1) * 30103 / 100000 - 1) ≤ x.toRat := by
    rw [← x.fraction_div, hfraction]
    refine ((reaches_iff hpos).1 hguess).trans ?_
    have : ((2 ^ (52 : ℕ) : ℕ) : ℚ) ≤ x.mantissa := by exact_mod_cast hx.low
    gcongr
  have hhighest : x.toRat < 10 ^ ((((52 : ℕ) : ℤ) - k - 1) * 30103 / 100000 - 1 + 4) := by
    rw [← Bool.not_eq_true, reaches_iff hpos, not_le] at hbeyond
    rw [← x.fraction_div, hfraction]
    refine lt_of_le_of_lt ?_ hbeyond
    have : (x.mantissa : ℚ) ≤ ((2 ^ (53 : ℕ) : ℕ) : ℚ) := by exact_mod_cast hx.high.le
    gcongr
  have hreaches (i : ℤ) : reaches x.mantissa (2 ^ k) i = true ↔ (10 : ℚ) ^ i ≤ x.toRat := by
    rw [reaches_iff hpos, ← x.fraction_div, hfraction]
  rw [hfraction]
  unfold leadingExponent
  rw [hlog, Nat.log2_two_pow]
  simp only [hreaches]
  generalize (((52 : ℕ) : ℤ) - k - 1) * 30103 / 100000 - 1 = guess at *
  -- one case for each of the tests, each with the bound that the one before it did not reach
  have hthreeUp : guess + 4 = guess + 3 + 1 := by ring
  have htwoUp : guess + 3 = guess + 2 + 1 := by ring
  have honeUp : guess + 2 = guess + 1 + 1 := by ring
  split
  · next h => exact ⟨h, hthreeUp ▸ hhighest⟩
  · next hthree =>
    split
    · next h => exact ⟨h, htwoUp ▸ not_le.1 hthree⟩
    · next htwo =>
      split
      · next h => exact ⟨h, honeUp ▸ not_le.1 htwo⟩
      · next hone => exact ⟨hlowest, not_le.1 hone⟩

/-! ## One grid -/

/-- A grid has a point at or before the number and one behind it. It gives one of the two that reads
back as the number, or nothing if neither does. -/
theorem onGrid?_spec (x : Binary64) (leading : ℤ) (count : ℕ) :
    ∃ q : ℕ, (q : ℚ) * 10 ^ (leading + 1 - count) ≤ x.toRat ∧
      x.toRat < (q + 1 : ℕ) * 10 ^ (leading + 1 - count) ∧
      (∀ d, onGrid? x leading count = some d → d.readsBackAs x = true ∧
        (d = ⟨q, leading + 1 - count⟩ ∨ d = ⟨q + 1, leading + 1 - count⟩)) ∧
      (onGrid? x leading count = none →
        Digits.readsBackAs ⟨q, leading + 1 - count⟩ x = false ∧
          Digits.readsBackAs ⟨q + 1, leading + 1 - count⟩ x = false) := by
  unfold onGrid?
  dsimp only
  obtain ⟨hpos, hdiv⟩ :=
    unscaled_div (show 0 < 10 by decide) x.fraction.1 x.fraction_den_pos (leading + 1 - count)
  rw [x.fraction_div, Nat.cast_ofNat] at hdiv
  generalize (if leading + 1 - (count : ℤ) ≥ 0
    then (x.fraction.1, x.fraction.2 * 10 ^ (leading + 1 - (count : ℤ)).toNat)
    else (x.fraction.1 * 10 ^ (-(leading + 1 - (count : ℤ))).toNat, x.fraction.2)) = quotient at *
  generalize leading + 1 - (count : ℤ) = i at *
  have hi := ten_zpow_pos i
  have hpos' : (0 : ℚ) < quotient.2 := by exact_mod_cast hpos
  refine ⟨quotient.1 / quotient.2, ?_, ?_, ?_⟩
  · rw [← le_div_iff₀ hi, ← hdiv, le_div_iff₀ hpos']
    exact_mod_cast Nat.div_mul_le_self _ _
  · rw [← div_lt_iff₀ hi, ← hdiv, div_lt_iff₀ hpos']
    exact_mod_cast Nat.lt_mul_of_div_lt (Nat.lt_succ_self _) hpos
  · generalize quotient.1 / quotient.2 = q
    cases hlower : Digits.readsBackAs ⟨q, i⟩ x with
    | true =>
      cases hupper : Digits.readsBackAs ⟨q + 1, i⟩ x with
      | true =>
        constructor
        · intro d hd
          dsimp only at hd
          split at hd
          · cases hd
            exact ⟨hlower, .inl rfl⟩
          · cases hd
            exact ⟨hupper, .inr rfl⟩
        · intro hnone
          dsimp only at hnone
          split at hnone <;> cases hnone
      | false => exact ⟨fun d hd => by cases hd; exact ⟨hlower, .inl rfl⟩, nofun⟩
    | false =>
      cases hupper : Digits.readsBackAs ⟨q + 1, i⟩ x with
      | true => exact ⟨fun d hd => by cases hd; exact ⟨hupper, .inr rfl⟩, nofun⟩
      | false => exact ⟨nofun, fun _ => ⟨rfl, rfl⟩⟩

/-! ## The search -/

/-- The search gets no further than to a grid that gives something. -/
theorem search_spec {left count : ℕ} (hcount : count ≤ k) (hleft : k ≤ count + left)
    (hk : onGrid? x leading k ≠ none) :
    ∃ c, count ≤ c ∧ c ≤ k ∧
      onGrid? x leading c = some (shortest.search x leading left count) := by
  induction left generalizing count with
  | zero =>
    obtain rfl : k = count := by omega
    obtain ⟨d, hd⟩ := Option.ne_none_iff_exists'.1 hk
    exact ⟨k, le_rfl, le_rfl, by rw [shortest.search, hd]; rfl⟩
  | succ left ih =>
    rw [shortest.search]
    cases hd : onGrid? x leading count with
    | some d => exact ⟨count, le_rfl, hcount, hd⟩
    | none =>
      have hne : k ≠ count := by
        rintro rfl
        exact hk hd
      obtain ⟨c, hc, hck, hfound⟩ :=
        ih (show count + 1 ≤ k by omega) (show k ≤ count + 1 + left by omega)
      exact ⟨c, by omega, hck, hfound⟩

/-- Zeros at the end are dropped, as long as there are no more of them than steps. -/
theorem drop_spec {left t : ℕ} (hm : m % 10 ≠ 0) (ht : t ≤ left) (i : ℤ) :
    Digits.trimmed.drop left (m * 10 ^ t) i = ⟨m, i + t⟩ := by
  induction t generalizing left i with
  | zero =>
    rw [pow_zero, mul_one, Nat.cast_zero, add_zero]
    cases left with
    | zero => rfl
    | succ left => rw [Digits.trimmed.drop, if_neg (by simp [hm])]
  | succ t ih =>
    obtain ⟨left, rfl⟩ : ∃ j, left = j + 1 := ⟨left - 1, by omega⟩
    have hten : m * 10 ^ (t + 1) = 10 * (m * 10 ^ t) := by ring
    have hne : 10 * (m * 10 ^ t) ≠ 0 := by
      have : 0 < m := by omega
      positivity
    rw [Digits.trimmed.drop, hten, if_pos (by simp [hne]), Nat.mul_div_cancel_left _ (by decide),
      ih (by omega)]
    push_cast
    congr 1
    ring

/-! ## Fifteen digits -/

/-- The grid of fifteen digits is coarser than the last bit. -/
theorem last_bit_lt (hx : x.Normal) (hleading : x.toRat < 10 ^ (leading + 1)) :
    (2 : ℚ) ^ x.exponent < 10 ^ (leading - 14) := by
  have hbit := hx.toRat_bounds.1
  have hpos := ten_zpow_pos (leading - 14)
  rw [ten_zpow_eq 15 (by omega : leading + 1 = (15 : ℕ) + (leading - 14))] at hleading
  linarith

/-- On the grid of fifteen digits no two points are rounded to one number. -/
theorem eq_of_nearest {a b : ℕ} (hx : x.Normal) (hleading : x.toRat < 10 ^ (leading + 1))
    (ha : x.Nearest (a * 10 ^ (leading - 14))) (hb : x.Nearest (b * 10 ^ (leading - 14))) :
    a = b :=
  eq_of_abs_sub_lt ((ha.abs_sub_le_of_nearest hb hx).trans_lt (last_bit_lt hx hleading))

/-- A point of the grid of fifteen digits that is rounded to a number is next to it, so the grid
gives something. -/
theorem onGrid?_ne_none {a : ℕ} (hx : x.Normal) (hleading : x.toRat < 10 ^ (leading + 1))
    (ha : x.Nearest (a * 10 ^ (leading - 14))) : onGrid? x leading 15 ≠ none := by
  intro hnone
  obtain ⟨q, hbefore, hbehind, -, hnot⟩ := onGrid?_spec x leading 15
  have hgrid : leading + 1 - ((15 : ℕ) : ℤ) = leading - 14 := by push_cast; ring
  rw [hgrid] at hbefore hbehind hnot
  obtain ⟨hlower, hupper⟩ := hnot hnone
  have hpos := ten_zpow_pos (leading - 14)
  have hclose := abs_le.1 (ha.abs_sub_toRat_le hx)
  have hbit := last_bit_lt hx hleading
  have hlow : (q : ℚ) < (a + 1 : ℕ) := by
    push_cast
    nlinarith [hclose.1]
  have hhigh : (a : ℚ) < (q + 2 : ℕ) := by
    push_cast at hbehind ⊢
    nlinarith [hclose.2]
  have hlow := Nat.cast_lt.1 hlow
  have hhigh := Nat.cast_lt.1 hhigh
  obtain rfl | rfl : a = q ∨ a = q + 1 := by omega
  · exact Bool.eq_false_iff.1 hlower (readsBackAs_iff.2 ha)
  · exact Bool.eq_false_iff.1 hupper (readsBackAs_iff.2 ha)

/-- A decimal of fifteen digits is on the grid of fifteen digits of the number that it is rounded
to: where all of its digits are behind the grid it is too far from the leading power of ten. -/
theorem sub_le_of_nearest (hx : x.Normal) (hleading : (10 : ℚ) ^ leading ≤ x.toRat)
    (hm : m < 10 ^ (15 : ℕ)) (hv : x.Nearest (m * 10 ^ i)) : leading - 14 ≤ i := by
  by_contra hlt
  have hm : (m : ℚ) ≤ 10 ^ (15 : ℕ) - 1 := by
    have : ((m + 1 : ℕ) : ℚ) ≤ (10 ^ (15 : ℕ) : ℕ) := by exact_mod_cast hm
    push_cast at this
    linarith
  have hv' : (m : ℚ) * 10 ^ i ≤ (10 ^ (15 : ℕ) - 1) * 10 ^ (leading - 15) := by
    have := zpow_le_zpow_right₀ (by norm_num : (1 : ℚ) ≤ 10) (show i ≤ leading - 15 by omega)
    gcongr
  have hclose := abs_le.1 (hv.abs_sub_toRat_le hx)
  have hbit := hx.toRat_bounds.1
  have hpos := ten_zpow_pos (leading - 15)
  rw [ten_zpow_eq 15 (by omega : leading = (15 : ℕ) + (leading - 15))] at hleading
  linarith [hclose.1]

/-- Numbers with different zeros at the end differ in their last digit that is not zero. -/
theorem exists_eq_mul_pow {a p s : ℕ} (hm : m % 10 ≠ 0) (h : a * 10 ^ p = m * 10 ^ s) :
    ∃ t, s = p + t ∧ a = m * 10 ^ t := by
  rcases Nat.le_total p s with hle | hle
  · obtain ⟨t, rfl⟩ := Nat.exists_eq_add_of_le hle
    refine ⟨t, rfl, Nat.eq_of_mul_eq_mul_right (show 0 < 10 ^ p by positivity) ?_⟩
    rw [h, pow_add]
    ring
  · obtain ⟨t, rfl⟩ := Nat.exists_eq_add_of_le hle
    have ha : a * 10 ^ t = m := by
      refine Nat.eq_of_mul_eq_mul_right (show 0 < 10 ^ s by positivity) ?_
      rw [← h, pow_add]
      ring
    cases t with
    | zero => exact ⟨0, by omega, by simpa using ha⟩
    | succ t =>
      refine absurd ?_ hm
      rw [← ha, pow_succ, ← mul_assoc, Nat.mul_mod_left]

/-- What is written for a number reads back as it, and has at most fifteen digits if some decimal of
so many is rounded to the number. -/
theorem shortest_spec (hleading : leadingExponent x.fraction.1 x.fraction.2 = leading)
    (hnext : x.toRat < 10 ^ (leading + 1)) (hgrid : onGrid? x leading 15 ≠ none) :
    ∃ c : ℕ, c ≤ 15 ∧ x.shortest.exponent = leading + 1 - c ∧ x.shortest.digits ≤ 10 ^ c ∧
      x.Nearest x.shortest.toRat := by
  obtain ⟨c, -, hc, hfound⟩ :=
    search_spec (show 1 ≤ 15 by decide) (show 15 ≤ 1 + 16 by decide) hgrid
  have hshortest : shortest.search x leading 16 1 = x.shortest := by
    rw [shortest]
    simp only [hleading]
  rw [hshortest] at hfound
  obtain ⟨q, hq, -, hsome, -⟩ := onGrid?_spec x leading c
  obtain ⟨hreads, hdigits⟩ := hsome _ hfound
  have hlt : (q : ℚ) < (10 ^ c : ℕ) := by
    rw [ten_zpow_eq c (by omega : leading + 1 = c + (leading + 1 - c))] at hnext
    push_cast
    exact lt_of_mul_lt_mul_right (hq.trans_lt hnext) (ten_zpow_pos _).le
  have hlt := Nat.cast_lt.1 hlt
  refine ⟨c, hc, ?_, ?_, readsBackAs_iff.1 hreads⟩
  · rcases hdigits with h | h <;> rw [h]
  · rcases hdigits with h | h <;> rw [h] <;> dsimp only <;> omega

/-- A decimal of at most fifteen digits is written again for the number that it is rounded to, if
that is below one over a power of two and not too small. -/
theorem trimmed_shortest (hx : x.Normal) (hlow : -71 < x.exponent) (hhigh : x.exponent < 0)
    (hm : m % 10 ≠ 0) (hlt : m < 10 ^ (15 : ℕ)) (hv : x.Nearest (m * 10 ^ i)) :
    x.shortest.trimmed = ⟨m, i⟩ := by
  obtain ⟨hleading, hnext⟩ := leadingExponent_spec hx hlow hhigh
  generalize hL : leadingExponent x.fraction.1 x.fraction.2 = leading at *
  have hgrid : leading - 14 ≤ i := sub_le_of_nearest hx hleading hlt hv
  obtain ⟨s, hs⟩ : ∃ s : ℕ, i = s + (leading - 14) := ⟨(i - (leading - 14)).toNat, by omega⟩
  -- both decimals as points of the grid of fifteen digits
  have hpoint : (m : ℚ) * 10 ^ i = (m * 10 ^ s : ℕ) * 10 ^ (leading - 14) := by
    rw [ten_zpow_eq s hs]
    push_cast
    ring
  rw [hpoint] at hv
  obtain ⟨c, hc, hexponent, hcount, hnearest⟩ :=
    shortest_spec hL hnext (onGrid?_ne_none hx hnext hv)
  obtain ⟨p, hp⟩ : ∃ p : ℕ, p + c = 15 := ⟨15 - c, by omega⟩
  have hshortest : x.shortest.toRat =
      (x.shortest.digits * 10 ^ p : ℕ) * 10 ^ (leading - 14) := by
    rw [Digits.toRat, hexponent,
      ten_zpow_eq p (by omega : leading + 1 - (c : ℤ) = p + (leading - 14))]
    push_cast
    ring
  rw [hshortest] at hnearest
  obtain ⟨t, rfl, hdrop⟩ := exists_eq_mul_pow hm (eq_of_nearest hx hnext hnearest hv)
  have ht : t ≤ 17 := by
    have hle : 10 ^ t ≤ 10 ^ c := (Nat.le_mul_of_pos_left _ (by omega)).trans (hdrop ▸ hcount)
    have := (Nat.pow_le_pow_iff_right (by decide)).1 hle
    omega
  rw [Digits.trimmed, hdrop, drop_spec hm ht, hexponent]
  congr 1
  push_cast at hs
  omega

end Binary64

end DataContract
