import DataContract.Proofs.Binary64.Shortest
import DataContract.Proofs.Digits
import Mathlib.Data.List.TakeWhile

/-!
# Numbers through JSON

The plain notation of a decimal is read as a number that is written in the same way, if the decimal
is an integer of a 64-bit word (`Json.Number.read?_integer`) or a fraction of at most fifteen digits
that needs no exponent (`Json.Number.read?_fraction`). The digits of such a fraction and its power
of ten are binary numbers, so the one division that reading makes rounds to the nearest, and the
shortest decimal of that is the fraction again.
-/

namespace DataContract

namespace Decimal

variable {n s : ℕ}

/-- The digits of a number other than zero do not start with a zero. -/
theorem head?_digitChars_ne_zero (h : n ≠ 0) : (digitChars n).head? ≠ some '0' := by
  have hdigit : ∀ m < 10, m ≠ 0 → m.digitChar ≠ '0' := by decide
  induction n using Nat.strongRecOn with
  | ind n ih =>
    rcases Nat.lt_or_ge n 10 with hn | hn
    · rw [digitChars, Nat.toDigits_of_lt_base hn]
      simpa using hdigit n hn h
    · have hq : n / 10 ≠ 0 := by omega
      have hhead := ih (n / 10) (by omega) hq
      obtain ⟨c, cs, hcs⟩ :=
        List.exists_cons_of_ne_nil (Nat.toDigits_ne_nil (n := n / 10) (b := 10))
      rw [digitChars, Nat.toDigits_of_base_le (by decide) hn, hcs]
      rw [digitChars, hcs] at hhead
      simpa using hhead

/-- Only the digits of zero begin with a zero, and there is one of them. -/
theorem digitChars_ne_zero_cons (n : ℕ) (c : Char) (cs : List Char) :
    digitChars n ≠ '0' :: c :: cs := by
  intro h
  rcases Nat.eq_zero_or_pos n with rfl | hn
  · cases h
  · exact head?_digitChars_ne_zero hn.ne' (by rw [h]; rfl)

/-- The last of padded digits. -/
theorem padDigits_succ (hs : 0 < s) (n : ℕ) :
    padDigits (s + 1) n = padDigits s (n / 10) ++ [(n % 10).digitChar] := by
  rcases Nat.lt_or_ge n 10 with hn | hn
  · obtain ⟨s, rfl⟩ : ∃ j, s = j + 1 := ⟨s - 1, by omega⟩
    rw [padDigits, padDigits, digitChars, digitChars, Nat.toDigits_of_lt_base hn,
      Nat.div_eq_of_lt hn, Nat.mod_eq_of_lt hn, Nat.toDigits_of_lt_base (by decide)]
    simp only [List.length_singleton, Nat.add_sub_cancel]
    rw [List.replicate_succ']
    rfl
  · rw [padDigits, padDigits, digitChars, digitChars, Nat.toDigits_of_base_le (by decide) hn]
    simp

/-- The digits of a number are those before a place and, with zeros in front, those behind it. -/
theorem digitChars_eq_append (hs : 0 < s) (h : n / 10 ^ s ≠ 0) :
    digitChars n = digitChars (n / 10 ^ s) ++ padDigits s (n % 10 ^ s) := by
  have hlast {n : ℕ} (hn : 10 ≤ n) :
      digitChars n = digitChars (n / 10) ++ [(n % 10).digitChar] :=
    Nat.toDigits_of_base_le (by decide) hn
  have hten {n : ℕ} (h : n / 10 ≠ 0) : 10 ≤ n := by
    by_contra hlt
    exact h (Nat.div_eq_of_lt (not_le.1 hlt))
  induction hs generalizing n with
  | refl =>
    rw [pow_one] at h ⊢
    have hdigit : padDigits 1 (n % 10) = [(n % 10).digitChar] := by
      rw [padDigits, digitChars, Nat.toDigits_of_lt_base (Nat.mod_lt n (by decide))]
      rfl
    rw [hlast (hten h), hdigit]
  | @step s hs ih =>
    have hpower : 10 ^ (s + 1) = 10 * 10 ^ s := by rw [pow_succ, mul_comm]
    have hdiv : n / 10 / 10 ^ s = n / 10 ^ (s + 1) := by rw [Nat.div_div_eq_div_mul, hpower]
    have hn : n / 10 ≠ 0 := by
      intro hzero
      rw [← hdiv, hzero, Nat.zero_div] at h
      exact h rfl
    rw [hlast (hten hn), ih (by rwa [hdiv]), hdiv, padDigits_succ hs, hpower,
      Nat.mod_mul_right_div_self, Nat.mod_mul_right_mod, List.append_assoc]

end Decimal

namespace Json.Number

/-- Digits are collected one by one, as long as what has been collected fits. -/
theorem collect_of_le {cs : List Char} {s : Nat}
    (h : Nat.ofDigitChars 10 cs s ≤ maxSignificand) :
    collect s cs = (Nat.ofDigitChars 10 cs s, cs.length, 0) := by
  induction cs generalizing s with
  | nil => rfl
  | cons c cs ih =>
    rw [Nat.ofDigitChars_cons] at h
    have hstep : s * 10 + (c.toNat - 48) = 10 * s + (c.toNat - '0'.toNat) := by
      rw [Nat.mul_comm]
      rfl
    have hfit := (Text.le_ofDigitChars cs _).trans h
    rw [collect, hstep, if_pos hfit, ih h, Nat.ofDigitChars_cons]
    rfl

/-- The digits of a number that fits are collected as this number. -/
theorem collect_digitChars {n : ℕ} (h : n ≤ maxSignificand) :
    collect 0 (Decimal.digitChars n) = (n, (Decimal.digitChars n).length, 0) := by
  have hvalue : Nat.ofDigitChars 10 (Decimal.digitChars n) 0 = n := Nat.ofDigitChars_ten_toDigits
  rw [collect_of_le (by rwa [hvalue]), hvalue]

/-- The leading digits end where something else stands. -/
theorem spanDigits_append {ds : List Char} (rest : List Char) (hds : ∀ c ∈ ds, c.isDigit = true)
    (hrest : ∀ c ∈ rest.head?, c.isDigit = false) : spanDigits (ds ++ rest) = (ds, rest) := by
  rw [spanDigits, List.takeWhile_append_of_pos hds, List.dropWhile_append_of_pos hds]
  cases rest with
  | nil => rw [List.takeWhile_nil, List.dropWhile_nil, List.append_nil]
  | cons c rest =>
    have hc := Bool.eq_false_iff.1 (hrest c rfl)
    rw [List.takeWhile_cons_of_neg hc, List.dropWhile_cons_of_neg hc, List.append_nil]

/-- A row of nothing but digits is all leading digits. -/
theorem spanDigits_eq_self {ds : List Char} (h : ∀ c ∈ ds, c.isDigit = true) :
    spanDigits ds = (ds, []) := by
  have hspan := spanDigits_append [] h nofun
  rwa [List.append_nil] at hspan

/-- The digits of a number of an unsigned word are read as this number. -/
theorem unsignedPart_digitChars (negative : Bool) {n : ℕ} (h : n < 2 ^ 64) :
    unsignedPart negative (Decimal.digitChars n) = (ofInteger? negative n).map (·, []) := by
  have hspan := spanDigits_eq_self fun _ => Decimal.isDigit_of_mem_digitChars (n := n)
  unfold unsignedPart
  simp only [hspan]
  split
  · next he => exact absurd he Nat.toDigits_ne_nil
  · next he => exact absurd he (Decimal.digitChars_ne_zero_cons _ _ _)
  · simp only [collect_digitChars (Nat.le_pred_of_lt h), if_true]

/-- Behind its sign the plain notation of a decimal begins with a digit. -/
theorem read?_chars (d : Decimal) : read? d.chars = unsignedPart d.negative d.unsignedChars := by
  rw [Decimal.chars_eq]
  cases d.negative with
  | true => rfl
  | false =>
    obtain ⟨c, cs, hcs, hc⟩ := d.exists_cons_unsignedChars
    rw [if_neg Bool.false_ne_true, List.nil_append, hcs]
    unfold read?
    split
    · next he =>
      cases he
      exact absurd hc (by decide)
    · rfl

/-- The plain notation of an integer of a word is read as this integer, which is written the same.
-/
theorem read?_integer {d : Decimal} (hscale : d.scale = 0) (hlo : -2 ^ 63 ≤ d.coefficient)
    (hhi : d.coefficient < 2 ^ 64) (hzero : d.negative = true → d.magnitude ≠ 0) :
    read? d.chars = some (.int d.coefficient, []) ∧
      (Number.int d.coefficient).chars = d.chars := by
  rw [read?_chars, Decimal.chars_eq, Decimal.unsignedChars, if_pos hscale]
  unfold Decimal.coefficient at hlo hhi ⊢
  cases hn : d.negative with
  | true =>
    have hm := Nat.pos_of_ne_zero (hzero hn)
    simp only [hn, if_true] at hlo hhi ⊢
    have hsize : (decide (d.magnitude = 0) || decide (d.magnitude > UInt64.size / 2)) = false := by
      have : UInt64.size = 2 ^ 64 := rfl
      simp only [Bool.or_eq_false_iff, decide_eq_false_iff_not]
      omega
    constructor
    · rw [unsignedPart_digitChars true (by omega), ofInteger?, hsize]
      rfl
    · rw [chars, if_pos (by omega), Int.natAbs_neg, Int.natAbs_natCast]
      rfl
  | false =>
    simp only [hn, Bool.false_eq_true, if_false, List.nil_append] at hlo hhi ⊢
    constructor
    · rw [unsignedPart_digitChars false (by omega)]
      rfl
    · rw [chars, if_neg (by omega), Int.natAbs_natCast]
      rfl

/-! ## Fractions -/

open Decimal (digitChars padDigits)

variable {m s : ℕ}

/-- The digits of a fraction are written positionally, at their places around the point. -/
theorem layout_eq (hs : 0 < s) (hm : m < 10 ^ 15) (hlow : 10 ^ s ≤ m * 10 ^ 5) :
    layout ⟨m, -s⟩ = digitChars (m / 10 ^ s) ++ '.' :: padDigits s (m % 10 ^ s) := by
  have hlength {k : ℕ} (hk : 0 < k) : (digitChars m).length ≤ k ↔ m < 10 ^ k :=
    Nat.length_toDigits_le_iff (by decide) hk
  have hlong : (digitChars m).length ≤ 15 := (hlength (by decide)).2 hm
  have hpos : 0 < (digitChars m).length := List.length_pos_of_ne_nil Nat.toDigits_ne_nil
  have hshort : s < (digitChars m).length + 5 := by
    by_contra hlt
    obtain ⟨k, rfl⟩ := Nat.exists_eq_add_of_le (not_lt.1 hlt)
    have hsmall : m < 10 ^ ((digitChars m).length + k) := (hlength (by omega)).1 (by omega)
    have : m * 10 ^ 5 < 10 ^ ((digitChars m).length + k) * 10 ^ 5 := by omega
    rw [← pow_add] at this
    have he : (digitChars m).length + k + 5 = (digitChars m).length + 5 + k := by omega
    rw [he] at this
    omega
  unfold layout
  have hdigits : Nat.toDigits 10 m = digitChars m := rfl
  dsimp only
  rw [hdigits, if_neg (by simp; omega)]
  rcases Nat.lt_or_ge m (10 ^ s) with hlt | hge
  · have hle : (digitChars m).length ≤ s := (hlength hs).2 hlt
    have hzeros : (-(s : ℤ) + ((digitChars m).length : ℤ) - 1).natAbs - 1 =
        s - (digitChars m).length := by omega
    rw [if_pos (by omega), hzeros, Nat.div_eq_of_lt hlt, Nat.mod_eq_of_lt hlt]
    rfl
  · have hwhole : m / 10 ^ s ≠ 0 := (Nat.div_pos hge (by positivity)).ne'
    have hlt : s < (digitChars m).length := by
      by_contra hle
      have := (hlength hs).1 (not_lt.1 hle)
      omega
    have hplaces : (-(s : ℤ) + ((digitChars m).length : ℤ) - 1).toNat + 1 =
        (digitChars m).length - s := by omega
    rw [if_neg (by omega), hplaces, if_neg (by omega)]
    have happend := Decimal.digitChars_eq_append hs hwhole
    have hback := Decimal.length_padDigits hs (Nat.mod_lt m (show 0 < 10 ^ s by positivity))
    have hfront : (digitChars m).length - s = (digitChars (m / 10 ^ s)).length := by
      have := congrArg List.length happend
      rw [List.length_append, hback] at this
      omega
    rw [hfront, happend, List.take_left, List.drop_left]

/-- The digits behind the point end the number. -/
theorem fractionPart_padDigits (negative : Bool) (hs : 0 < s) (hm : m < 2 ^ 64) :
    fractionPart negative (m / 10 ^ s) 0 (padDigits s (m % 10 ^ s)) =
      (ofParts? negative m (-s)).map fun x => (.float x, []) := by
  have hlength := Decimal.length_padDigits hs (Nat.mod_lt m (show 0 < 10 ^ s by positivity))
  have hspan : spanDigits (padDigits s (m % 10 ^ s)) = (padDigits s (m % 10 ^ s), []) :=
    spanDigits_eq_self fun _ => Decimal.isDigit_of_mem_padDigits
  have hne : (padDigits s (m % 10 ^ s)).isEmpty = false := by
    rw [List.isEmpty_eq_false_iff]
    exact List.ne_nil_of_length_pos (by rwa [hlength])
  have hcollect : collect (m / 10 ^ s) (padDigits s (m % 10 ^ s)) = (m, s, 0) := by
    have hvalue : Nat.ofDigitChars 10 (padDigits s (m % 10 ^ s)) (m / 10 ^ s) = m := by
      rw [Nat.ofDigitChars_eq_ofDigitChars_zero, hlength, Decimal.ofDigitChars_padDigits,
        Nat.div_add_mod]
    rw [collect_of_le (by rw [hvalue]; exact Nat.le_pred_of_lt hm), hvalue, hlength]
  rw [fractionPart, hspan]
  simp only [hne, hcollect, zero_sub]
  unfold floatEnd
  cases ofParts? negative m (-s) <;> rfl

/-- The plain notation of a fraction whose digits fit a word is read as these digits and the place
of the point. -/
theorem unsignedPart_fraction (negative : Bool) (hs : 0 < s) (hm : m < 2 ^ 64) :
    unsignedPart negative (digitChars (m / 10 ^ s) ++ '.' :: padDigits s (m % 10 ^ s)) =
      (ofParts? negative m (-s)).map fun x => (.float x, []) := by
  have hspan := spanDigits_append ('.' :: padDigits s (m % 10 ^ s))
    (fun _ => Decimal.isDigit_of_mem_digitChars (n := m / 10 ^ s))
    fun c hc => by cases hc; rfl
  have hfit : m / 10 ^ s ≤ maxSignificand := (Nat.div_le_self _ _).trans (Nat.le_pred_of_lt hm)
  unfold unsignedPart
  simp only [hspan]
  split
  · next he => exact absurd he Nat.toDigits_ne_nil
  · next he => exact absurd he (Decimal.digitChars_ne_zero_cons _ _ _)
  · simp only [collect_digitChars hfit, Nat.cast_zero, fractionPart_padDigits negative hs hm]

/-- Powers of ten up to the twenty-second are binary numbers, as those of five have 52 bits. -/
theorem toRat_powerOfTen (hs : s < 23) : (powerOfTen s).toRat = 10 ^ s := by
  have hfive : 5 ^ s < 2 ^ 52 :=
    (Nat.pow_le_pow_right (by decide) (Nat.le_of_lt_succ hs)).trans_lt (by decide)
  obtain ⟨x, hx, -, -, hvalue⟩ :=
    Binary64.exists_ofNat? (j := s) (Nat.pow_pos (by decide)) hfive (by omega)
  rw [← mul_pow] at hx
  have hpower : powerOfTen s = x := by
    rw [powerOfTen]
    exact congrArg (·.getD Binary64.zero) hx
  rw [hpower, hvalue]
  push_cast
  rw [← mul_pow]
  norm_num

/-- Digits over a power of ten are rounded once, as both of them are binary numbers. -/
theorem exists_ofParts? (negative : Bool) (hs : 0 < s) (hs' : s < 23) (hm : 0 < m)
    (hlt : m < 10 ^ 15) :
    ∃ x, ofParts? negative m (-s) = some x ∧ x.negative = negative ∧ x.Normal ∧
      x.Nearest (m / 10 ^ s) := by
  obtain ⟨x, hx, hsign, hnormal, hvalue⟩ :=
    Binary64.exists_ofNat? (j := 0) hm (by omega) (by decide)
  rw [pow_zero, mul_one] at hx hvalue
  have hm1 : (1 : ℚ) ≤ m := by exact_mod_cast hm
  have hm2 : (m : ℚ) < 2 ^ (50 : ℕ) := by exact_mod_cast hlt.trans (by decide : 10 ^ 15 < 2 ^ 50)
  have hten1 : (1 : ℚ) ≤ 10 ^ s := one_le_pow₀ (by norm_num)
  have hten2 : (10 : ℚ) ^ s ≤ 10 ^ 22 := pow_le_pow_right₀ (by norm_num) (by omega)
  have hpower := toRat_powerOfTen hs'
  have hquotient := Binary64.exists_div? (x := x) (y := powerOfTen s)
  rw [hvalue, hpower] at hquotient
  obtain ⟨y, hy, hsign', hnormal', hnearest⟩ := hquotient (by linarith) (by linarith)
    (by
      rw [le_div_iff₀ (by linarith)]
      have : (2 : ℚ) ^ (-200 : ℤ) * 10 ^ 22 ≤ 1 := by norm_num
      have hpos := Binary64.two_zpow_pos (-200)
      nlinarith)
    (by
      rw [div_lt_iff₀ (by linarith)]
      have : (2 : ℚ) ^ (50 : ℕ) ≤ 2 ^ (200 : ℤ) := by norm_num
      nlinarith)
  have hdown : scaleDown 8 x s = some y := by
    rw [scaleDown, hnormal.isZero_eq_false, if_neg Bool.false_ne_true, if_pos (by omega)]
    exact hy
  have hparts : ofParts? negative m (-s) = some (if negative then y.neg else y) := by
    rw [ofParts?, hx]
    simp only [Option.bind_eq_bind, Option.bind_some, hnormal.isZero_eq_false, neg_neg,
      Int.toNat_natCast]
    rw [if_neg Bool.false_ne_true, if_neg (by omega), hdown]
    rfl
  refine ⟨_, hparts, ?_⟩
  cases negative with
  | false => exact ⟨hsign'.trans hsign, hnormal', hnearest⟩
  | true =>
    refine ⟨?_, ⟨hnormal'.low, hnormal'.high, hnormal'.exponent⟩, hnearest⟩
    rw [if_pos rfl, Binary64.neg, hsign', hsign]
    rfl

/-- The plain notation of a fraction of at most fifteen digits that is not below `0.00001` is read
as a binary number that is written the same. -/
theorem read?_fraction {d : Decimal} (hscale : 0 < d.scale) (hlast : d.magnitude % 10 ≠ 0)
    (hlt : d.magnitude < 10 ^ 15) (hlow : 10 ^ d.scale ≤ d.magnitude * 10 ^ 5) :
    ∃ x, read? d.chars = some (.float x, []) ∧ (Number.float x).chars = d.chars := by
  have hm : 0 < d.magnitude := by omega
  have hs : d.scale < 23 := by
    have hpower : 10 ^ d.scale < 10 ^ 20 :=
      calc 10 ^ d.scale ≤ d.magnitude * 10 ^ 5 := hlow
        _ < 10 ^ 15 * 10 ^ 5 := Nat.mul_lt_mul_of_pos_right hlt (by positivity)
        _ = 10 ^ 20 := by rw [← pow_add]
    have := (Nat.pow_lt_pow_iff_right (by decide)).1 hpower
    omega
  obtain ⟨x, hx, hsign, hnormal, hnearest⟩ := exists_ofParts? d.negative hscale hs hm hlt
  have hten : (0 : ℚ) < 10 ^ d.scale := by positivity
  obtain ⟨hexponent, hexponent'⟩ := hnearest.exponent_bounds (j := -17) (k := 50) hnormal
    (by
      have hlow : (10 : ℚ) ^ d.scale ≤ d.magnitude * 10 ^ 5 := by exact_mod_cast hlow
      rw [le_div_iff₀ hten]
      norm_num
      linarith)
    (by
      have hten1 : (1 : ℚ) ≤ 10 ^ d.scale := one_le_pow₀ (by norm_num)
      have hlt : (d.magnitude : ℚ) < 10 ^ 15 := by exact_mod_cast hlt
      rw [div_lt_iff₀ hten]
      norm_num
      linarith)
  have hpoint : (d.magnitude : ℚ) / 10 ^ d.scale = d.magnitude * 10 ^ (-d.scale : ℤ) := by
    rw [zpow_neg, zpow_natCast, div_eq_mul_inv]
  rw [hpoint] at hnearest
  have hdigits := Binary64.trimmed_shortest hnormal (by omega) (by omega) hlast hlt hnearest
  refine ⟨x, ?_, ?_⟩
  · rw [read?_chars, Decimal.unsignedChars, if_neg hscale.ne',
      unsignedPart_fraction d.negative hscale (hlt.trans (by decide)), hx]
    rfl
  · rw [chars, floatChars, hnormal.isZero_eq_false, hdigits, hsign, Decimal.chars_eq,
      Decimal.unsignedChars, if_neg hscale.ne', ← layout_eq hscale hlt hlow]
    cases d.negative <;> rfl

end Json.Number

end DataContract
