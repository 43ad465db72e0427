import DataContract.Proofs.Ranges

/-!
# Generated numbers are in their range

A number is drawn from the whole numbers between two bounds, and where that fails a bound is taken.
A missing lower bound is a thousand below the upper one; the difference is rounded, but by no more
than a half.
-/

namespace DataContract

namespace Decimal

/-! ## Rounded differences -/

/-- A rounded quotient is off by no more than a half. -/
theorem divideRounded_bounds (n : Nat) {d : Nat} (hd : 0 < d) :
    (n : ℚ) / d - 1 / 2 ≤ divideRounded n d ∧ (divideRounded n d : ℚ) ≤ n / d + 1 / 2 := by
  have hq : (0 : ℚ) < d := by exact_mod_cast hd
  have hn : (d : ℚ) * (n / d : Nat) + (n % d : Nat) = n := by exact_mod_cast Nat.div_add_mod n d
  have hlt : ((n % d : Nat) : ℚ) < d := by exact_mod_cast Nat.mod_lt n hd
  have hpos : (0 : ℚ) ≤ (n % d : Nat) := by positivity
  have hdiv : (n : ℚ) / d = (n / d : Nat) + (n % d : Nat) / d := by
    rw [← hn]
    field_simp
  have hr : ((n % d : Nat) : ℚ) / d * 2 = (2 * (n % d : Nat)) / d := by ring
  rw [hdiv]
  unfold divideRounded
  dsimp only
  split
  · next h =>
    have hhalf : d ≤ 2 * (n % d) := by
      simp only [gt_iff_lt, Bool.or_eq_true, decide_eq_true_eq, Bool.and_eq_true] at h
      omega
    have hhalf : (1 : ℚ) / 2 ≤ (n % d : Nat) / d := by
      rw [div_le_div_iff₀ (by norm_num) hq]
      exact_mod_cast (by omega : 1 * d ≤ n % d * 2)
    have hone : ((n % d : Nat) : ℚ) / d < 1 := (div_lt_one hq).2 hlt
    push_cast
    constructor <;> linarith
  · next h =>
    have hhalf : 2 * (n % d) ≤ d := by
      simp only [gt_iff_lt, Bool.or_eq_true, decide_eq_true_eq, Bool.and_eq_true] at h
      omega
    have hhalf : ((n % d : Nat) : ℚ) / d ≤ 1 / 2 := by
      rw [div_le_div_iff₀ hq (by norm_num)]
      exact_mod_cast (by omega : n % d * 2 ≤ 1 * d)
    have hzero : (0 : ℚ) ≤ (n % d : Nat) / d := by positivity
    constructor <;> linarith

/-- A decimal stands for its coefficient over the power of ten. -/
theorem toRat_of_ofParts? {c : Int} {scale : Nat} {d : Decimal} (h : ofParts? c scale = some d) :
    d.toRat = c / 10 ^ scale := by
  obtain ⟨hc, hs⟩ := coefficient_of_ofParts? h
  rw [toRat, hc, hs]

/-- A coefficient that is rounded to fewer fraction digits stands for a number that is no more than
a half larger. -/
theorem rounded_le {c : Int} {kept scale : Nat} (hk : kept ≤ scale) :
    ((c.sign * divideRounded c.natAbs (10 ^ (scale - kept)) : Int) : ℚ) / 10 ^ kept ≤
      c / 10 ^ scale + 1 / 2 := by
  have hk0 := ten_pow_pos kept
  have hk1 : (1 : ℚ) ≤ 10 ^ kept := one_le_pow₀ (by norm_num)
  obtain ⟨hlo, hhi⟩ := divideRounded_bounds c.natAbs (d := 10 ^ (scale - kept)) (by positivity)
  have hscale : (10 : ℚ) ^ scale = 10 ^ (scale - kept) * 10 ^ kept := by
    rw [← pow_add, Nat.sub_add_cancel hk]
  have hhalf : (1 : ℚ) / 2 / 10 ^ kept ≤ 1 / 2 := div_le_self (by norm_num) hk1
  have hq (x y : ℚ) (hxy : x ≤ y + 1 / 2) : x / 10 ^ kept ≤ y / 10 ^ kept + 1 / 2 := by
    have := div_le_div_of_nonneg_right hxy hk0.le
    rw [add_div] at this
    linarith
  rw [hscale, ← div_div]
  refine hq _ _ ?_
  push_cast at hlo hhi ⊢
  rcases lt_trichotomy c 0 with hc | rfl | hc
  · have habs : ((c.natAbs : Nat) : ℚ) = -c := by
      rw [← Int.cast_natCast, Int.ofNat_natAbs_of_nonpos hc.le]
      push_cast
      ring
    rw [Int.sign_eq_neg_one_of_neg hc]
    rw [habs] at hlo
    push_cast
    rw [neg_div] at hlo
    linarith
  · simp
  · have habs : ((c.natAbs : Nat) : ℚ) = c := by
      rw [← Int.cast_natCast, Int.natAbs_of_nonneg hc.le]
    rw [Int.sign_eq_one_of_pos hc]
    rw [habs] at hhi
    push_cast
    linarith

/-- Rounding to fit adds no more than a half. -/
theorem toRat_fit?_le {c : Int} {scale kept : Nat} {d : Decimal} (hk : kept ≤ scale)
    (h : fit? c scale kept = some d) : d.toRat ≤ c / 10 ^ scale + 1 / 2 := by
  induction kept with
  | zero =>
    rw [fit?] at h
    have hle := rounded_le (c := c) (Nat.zero_le scale)
    rw [Nat.sub_zero] at hle
    rwa [toRat_of_ofParts? h]
  | succ kept ih =>
    rw [fit?] at h
    split at h
    · next hparts =>
      cases h
      rw [toRat_of_ofParts? hparts]
      exact rounded_le hk
    · exact ih (Nat.le_of_succ_le hk) h

/-- A sum that is rounded is no more than a half above the exact one. -/
theorem toRat_add?_le {a b d : Decimal} (h : a.add? b = some d) :
    d.toRat ≤ a.toRat + b.toRat + 1 / 2 := by
  have hle := toRat_fit?_le (Nat.le_refl _) h
  have ha := ten_pow_pos a.scale
  have hb := ten_pow_pos b.scale
  have hpow {s t : Nat} (hst : s ≤ t) : (10 : ℚ) ^ t = 10 ^ (t - s) * 10 ^ s := by
    rw [← pow_add, Nat.sub_add_cancel hst]
  have hsum : ((a.coefficient * 10 ^ (max a.scale b.scale - a.scale) +
      b.coefficient * 10 ^ (max a.scale b.scale - b.scale) : Int) : ℚ) /
      10 ^ max a.scale b.scale = a.toRat + b.toRat := by
    push_cast
    rw [add_div, toRat, toRat]
    congr 1
    · rw [hpow (le_max_left a.scale b.scale)]
      field_simp
    · rw [hpow (le_max_right a.scale b.scale)]
      field_simp
  rwa [hsum] at hle

/-- The number with the other sign is the opposite one. -/
theorem toRat_neg (a : Decimal) : a.neg.toRat = -a.toRat := by
  rw [toRat_eq, toRat_eq, neg]
  cases a.negative <;> simp

/-- A thousand less, rounded, is less. -/
theorem toRat_sub?_thousand_le {a d : Decimal} (h : a.sub? .thousand = some d) :
    d.toRat ≤ a.toRat := by
  have hle := toRat_add?_le h
  have hthousand : (thousand : Decimal).toRat = 1000 := by simp [toRat, coefficient, thousand]
  rw [toRat_neg, hthousand] at hle
  linarith

/-! ## Whole numbers -/

/-- A whole decimal that fits a word is this word. -/
theorem toRat_of_toWord? {a : Decimal} {n : Int} (hs : a.scale = 0) (h : a.toWord? = some n) :
    a.toRat = n := by
  unfold toWord? at h
  dsimp only at h
  split at h
  · cases h
    simp [toRat, hs]
  · cases h

/-- A whole number that is drawn between two bounds lies between them. -/
theorem between_of_drawn {lo hi d : Decimal} {a b : Int} {c : Choices}
    (ha : lo.ceil.toWord? = some a) (hb : hi.floor.toWord? = some b) (hab : a ≤ b)
    (hd : ofParts? (c.intBetween a b) 0 = some d) :
    d.isWhole = true ∧ lo.toRat ≤ d.toRat ∧ d.toRat ≤ hi.toRat := by
  obtain ⟨hlo, hhi⟩ := c.intBetween_bounds hab
  have hlo : (a : ℚ) ≤ c.intBetween a b := by exact_mod_cast hlo
  have hhi : (c.intBetween a b : ℚ) ≤ b := by exact_mod_cast hhi
  have hrat := toRat_of_ofParts? hd
  rw [pow_zero, div_one] at hrat
  rw [← toRat_of_toWord? rfl ha, ← hrat] at hlo
  rw [← toRat_of_toWord? rfl hb, ← hrat] at hhi
  exact ⟨isWhole_of_scale (coefficient_of_ofParts? hd).2, (le_toRat_ceil lo).trans hlo,
    hhi.trans (toRat_floor_le hi)⟩

end Decimal

namespace NumberRange

variable {r : NumberRange} {lo hi : Option Decimal} {integer : Bool}

/-- The bounds of a range do not contradict each other. -/
structure Consistent (r : NumberRange) : Prop where
  ordered : ∀ lo ∈ r.minimum, ∀ hi ∈ r.maximum, lo.toRat ≤ hi.toRat
  whole : r.integer = true → ∀ lo ∈ r.minimum, ∀ hi ∈ r.maximum, lo.ceil.toRat ≤ hi.toRat

/-- The constructor that checks bounds makes ranges that some number is in. -/
theorem consistent_of_bounded (h : bounded lo hi integer = .ok r) : r.Consistent := by
  unfold bounded at h
  split at h
  · next a b =>
    split at h
    · cases h
    · next hlt =>
      split at h
      · cases h
      · next hceil =>
        cases h
        refine ⟨?_, ?_⟩
        · rintro _ ⟨rfl⟩ _ ⟨rfl⟩
          simpa [Decimal.lt_iff] using hlt
        · rintro rfl _ ⟨rfl⟩ _ ⟨rfl⟩
          simpa [Decimal.lt_iff] using hceil
  · next hne =>
    cases h
    constructor
    · rintro a ha b hb
      exact (hne a b ha hb).elim
    · rintro - a ha b hb
      exact (hne a b ha hb).elim

/-- The numbers are drawn from the lower bound on, below the upper one. -/
theorem drawBounds_spec (h : r.Consistent) :
    (∀ a ∈ r.minimum, r.drawBounds.1 = a) ∧
      ∀ b ∈ r.maximum, r.drawBounds.1.toRat ≤ b.toRat ∧ r.drawBounds.2 = b := by
  have hordered := h.ordered
  unfold drawBounds
  cases hmin : r.minimum with
  | none =>
    cases hmax : r.maximum with
    | none => exact ⟨nofun, nofun⟩
    | some b =>
      refine ⟨nofun, ?_⟩
      rintro _ ⟨rfl⟩
      refine ⟨?_, rfl⟩
      dsimp only
      cases hd : b.sub? .thousand with
      | none => exact le_refl _
      | some d => exact Decimal.toRat_sub?_thousand_le hd
  | some a =>
    cases hmax : r.maximum with
    | none => exact ⟨fun _ ha => by cases ha; rfl, nofun⟩
    | some b =>
      refine ⟨fun _ ha => by cases ha; rfl, ?_⟩
      rintro _ ⟨rfl⟩
      exact ⟨hordered a hmin b hmax, rfl⟩

/-- Where none can be drawn, a whole number is the lower bound rounded up, unless the upper one is
below that. -/
theorem check_rounded {lo hi : Decimal} (h : r.Consistent) (hmin : ∀ a ∈ r.minimum, lo = a)
    (hmax : ∀ b ∈ r.maximum, lo.toRat ≤ b.toRat ∧ hi = b) (hint : r.integer = true) :
    r.check (match r.maximum with
      | none => lo.ceil
      | some max => if lo.ceil.le max then lo.ceil else hi.floor) = .success := by
  have hwhole := h.whole hint
  have hceil (hb : ∀ b ∈ r.maximum, lo.ceil.toRat ≤ b.toRat) : r.check lo.ceil = .success := by
    refine check_iff.2 ⟨fun _ => Decimal.isWhole_ceil lo, fun m hm => ?_, hb⟩
    obtain rfl := hmin m hm
    exact lo.le_toRat_ceil
  cases hupper : r.maximum with
  | none => exact hceil (by simp [hupper])
  | some top =>
    rw [hupper] at hceil hmax hwhole
    dsimp only
    split
    · next hle =>
      refine hceil ?_
      rintro _ ⟨rfl⟩
      exact Decimal.le_iff.1 hle
    · next hle =>
      obtain ⟨-, rfl⟩ := hmax top rfl
      refine check_iff.2 ⟨fun _ => Decimal.isWhole_floor hi, fun m hm => ?_, ?_⟩
      · obtain rfl := hmin m hm
        exact absurd (Decimal.le_iff.2 (hwhole lo hm hi rfl)) hle
      · rw [hupper]
        rintro _ ⟨rfl⟩
        exact hi.toRat_floor_le

/-- A generated number is in its range. -/
theorem check_generate (h : r.Consistent) (c : Choices) : r.check (r.generate c) = .success := by
  obtain ⟨hmin, hmax⟩ := drawBounds_spec h
  unfold generate
  generalize r.drawBounds = bounds at hmin hmax
  obtain ⟨lo, hi⟩ := bounds
  dsimp only at hmin hmax ⊢
  split
  · next d hd =>
    obtain ⟨a, ha, hd⟩ := Option.bind_eq_some_iff.1 hd
    obtain ⟨b, hb, hd⟩ := Option.bind_eq_some_iff.1 hd
    split at hd
    · next hab =>
      obtain ⟨hwhole, hlo, hhi⟩ := Decimal.between_of_drawn ha hb hab hd
      refine check_iff.2 ⟨fun _ => hwhole, fun m hm => ?_, fun m hm => ?_⟩
      · obtain rfl := hmin m hm
        exact hlo
      · obtain ⟨-, rfl⟩ := hmax m hm
        exact hhi
    · cases hd
  · split
    · next hint => exact check_rounded h hmin hmax hint
    · next hint =>
      refine check_iff.2 ⟨fun hi => absurd hi hint, fun m hm => ?_, fun m hm => (hmax m hm).1⟩
      obtain rfl := hmin m hm
      exact le_refl _

end NumberRange

end DataContract
