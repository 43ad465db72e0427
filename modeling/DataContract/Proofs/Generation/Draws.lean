import DataContract.Proofs.Generation.Numbers

/-!
# What a number is drawn from

The whole numbers between the bounds are drawn from, if there is one and the outermost are words
(`NumberRange.DrawsFrom`). Then every choice is a decimal and every one of them is the outcome of
some choices; else the outcome does not depend on the choices. Either way the number is in the range
(`NumberRange.generate_of_bounded`), also next to the limits of words and of decimals.
-/

namespace DataContract

namespace Decimal

/-- A decimal without a fraction is the word of the number it stands for, if that is a word. -/
theorem toWord?_eq_some_iff {a : Decimal} {n : Int} (hs : a.scale = 0) :
    a.toWord? = some n ↔
      a.toRat = n ∧ Int64.minValue.toInt ≤ n ∧ n ≤ Int64.maxValue.toInt := by
  constructor
  · intro h
    refine ⟨toRat_of_toWord? hs h, ?_⟩
    unfold toWord? at h
    dsimp only at h
    split at h
    · next hword =>
      cases h
      exact hword
    · cases h
  · rintro ⟨hn, hword⟩
    rw [toRat, hs, pow_zero, div_one] at hn
    have hcoefficient : a.coefficient = n := by exact_mod_cast hn
    unfold toWord?
    rw [hs, hcoefficient, pow_zero, Int.tdiv_one]
    exact if_pos hword

/-- Every word is a decimal. -/
theorem exists_ofParts?_of_word {n : Int} (hlo : Int64.minValue.toInt ≤ n)
    (hhi : n ≤ Int64.maxValue.toInt) : ∃ d, ofParts? n 0 = some d := by
  have hmin : Int64.minValue.toInt = -2 ^ 63 := by decide
  have hmax : Int64.maxValue.toInt = 2 ^ 63 - 1 := by decide
  have hfits : (0 : Nat) ≤ 28 ∧ n.natAbs < 2 ^ 96 := by omega
  exact ⟨_, dif_pos hfits⟩

end Decimal

namespace NumberRange

variable {r : NumberRange} {minimum maximum : Option Decimal} {integer : Bool} {a b : Int}

/-- The whole numbers between the bounds are those from `a` to `b`. There is one, and they are
words. -/
structure DrawsFrom (r : NumberRange) (a b : Int) : Prop where
  lowest : ⌈r.drawBounds.1.toRat⌉ = a
  highest : ⌊r.drawBounds.2.toRat⌋ = b
  nonempty : a ≤ b
  isWord_lowest : Int64.minValue.toInt ≤ a
  isWord_highest : b ≤ Int64.maxValue.toInt

/-- The numbers that are drawn from are seen from the bounds, each rounded inward to a word. -/
theorem drawsFrom_iff : r.DrawsFrom a b ↔
    r.drawBounds.1.ceil.toWord? = some a ∧ r.drawBounds.2.floor.toWord? = some b ∧ a ≤ b := by
  rw [Decimal.toWord?_eq_some_iff rfl, Decimal.toWord?_eq_some_iff rfl, Decimal.toRat_ceil,
    Decimal.toRat_floor, Int.cast_inj, Int.cast_inj]
  constructor
  · rintro ⟨hlo, hhi, hab, hmin, hmax⟩
    exact ⟨⟨hlo, hmin, hab.trans hmax⟩, ⟨hhi, hmin.trans hab, hmax⟩, hab⟩
  · rintro ⟨⟨hlo, hmin, -⟩, ⟨hhi, -, hmax⟩, hab⟩
    exact ⟨hlo, hhi, hab, hmin, hmax⟩

/-- The number that is drawn is the decimal of the choice. -/
theorem DrawsFrom.ofParts?_intBetween (h : r.DrawsFrom a b) (c : Choices) :
    Decimal.ofParts? (c.intBetween a b) 0 = some (r.generate c) := by
  obtain ⟨hlo, hhi⟩ := c.intBetween_bounds h.nonempty
  obtain ⟨d, hd⟩ := Decimal.exists_ofParts?_of_word (h.isWord_lowest.trans hlo)
    (hhi.trans h.isWord_highest)
  obtain ⟨ha, hb, hab⟩ := drawsFrom_iff.1 h
  simp only [generate, ha, hb, Option.bind_eq_bind, Option.bind_some, if_pos hab, hd]

/-- Every whole number between the bounds is drawn by some choices. -/
theorem DrawsFrom.exists_generate (h : r.DrawsFrom a b) {n : Int} (hlo : a ≤ n) (hhi : n ≤ b) :
    ∃ c, (r.generate c).toRat = n := by
  let c : Choices := ⟨fun _ => (n - a).toNat⟩
  have hn : c.intBetween a b = n := by
    have hmod : (n - a).toNat % (b + 1 - a).toNat = (n - a).toNat := Nat.mod_eq_of_lt (by omega)
    simp only [c, Choices.intBetween, Choices.below, hmod]
    rw [if_neg (by omega)]
    omega
  refine ⟨c, ?_⟩
  rw [Decimal.toRat_of_ofParts? (h.ofParts?_intBetween c), hn, pow_zero, div_one]

/-- If no whole number can be drawn, all choices generate the same number. -/
theorem exists_forall_generate_eq (h : ∀ a b, ¬ r.DrawsFrom a b) :
    ∃ d, ∀ c, r.generate c = d := by
  simp only [drawsFrom_iff, not_and] at h
  have hdrawn (c : Choices) : (r.drawBounds.1.ceil.toWord?.bind fun a =>
      r.drawBounds.2.floor.toWord?.bind fun b =>
        if a ≤ b then Decimal.ofParts? (c.intBetween a b) 0 else none) = none := by
    refine Option.bind_eq_none_iff.2 fun a ha => Option.bind_eq_none_iff.2 fun b hb => ?_
    exact if_neg (h a b ha hb)
  refine ⟨r.generate default, fun c => ?_⟩
  simp only [generate, Option.bind_eq_bind, hdrawn]

/-- A range keeps the bounds that it is made with. -/
theorem eq_of_bounded (h : bounded minimum maximum integer = .ok r) :
    r = ⟨minimum, maximum, integer⟩ := by
  unfold bounded at h
  split at h
  · split at h
    · cases h
    · split at h <;> cases h
      rfl
  · cases h
    rfl

/-- Bounds that make a range let it generate. A number is drawn from whole numbers that are there
and can be represented, or it is fixed; it lies within both bounds, is whole if that is required,
and is accepted by the range. -/
theorem generate_of_bounded (h : bounded minimum maximum integer = .ok r) :
    (∀ a b, r.DrawsFrom a b →
      (∀ c : Choices, Decimal.ofParts? (c.intBetween a b) 0 = some (r.generate c)) ∧
        ∀ n, a ≤ n → n ≤ b → ∃ c, (r.generate c).toRat = n) ∧
    ((∀ a b, ¬ r.DrawsFrom a b) → ∃ d, ∀ c, r.generate c = d) ∧
    ∀ c, r.check (r.generate c) = .success ∧
      (integer = true → ∃ n : ℤ, (r.generate c).toRat = n) ∧
      (∀ lo ∈ minimum, lo.toRat ≤ (r.generate c).toRat) ∧
      ∀ hi ∈ maximum, (r.generate c).toRat ≤ hi.toRat := by
  refine ⟨fun a b hdraws => ⟨hdraws.ofParts?_intBetween, fun n => hdraws.exists_generate⟩,
    exists_forall_generate_eq, fun c => ?_⟩
  have hcheck := check_generate (consistent_of_bounded h) c
  obtain ⟨hwhole, hmin, hmax⟩ := check_iff.1 hcheck
  obtain rfl := eq_of_bounded h
  exact ⟨hcheck, fun hint => Decimal.isWhole_iff.1 (hwhole hint), hmin, hmax⟩

/-- A billionth below the largest word. -/
def belowLastWord : Decimal := ⟨false, 9223372036854775806999999999, 9, by decide, by decide⟩

/-- A billionth above the largest word. -/
def aboveLastWord : Decimal := ⟨false, 9223372036854775807000000001, 9, by decide, by decide⟩

/-- Between a billionth below and above it, the largest word is the only number that is drawn. -/
theorem lastWord_generated :
    bounded (some belowLastWord) (some aboveLastWord) true =
        .ok ⟨some belowLastWord, some aboveLastWord, true⟩ ∧
      DrawsFrom ⟨some belowLastWord, some aboveLastWord, true⟩
        Int64.maxValue.toInt Int64.maxValue.toInt ∧
      ∀ c, (generate ⟨some belowLastWord, some aboveLastWord, true⟩ c).toRat =
        Int64.maxValue.toInt := by
  have hbounded : bounded (some belowLastWord) (some aboveLastWord) true =
      .ok ⟨some belowLastWord, some aboveLastWord, true⟩ := rfl
  have hdraws : DrawsFrom ⟨some belowLastWord, some aboveLastWord, true⟩
      Int64.maxValue.toInt Int64.maxValue.toInt :=
    drawsFrom_iff.2 ⟨by decide, by decide, le_refl _⟩
  obtain ⟨hdrawn, -, hrange⟩ := generate_of_bounded hbounded
  refine ⟨hbounded, hdraws, fun c => ?_⟩
  -- what is drawn between two equal bounds is both of them
  obtain ⟨hlo, hhi⟩ := c.intBetween_bounds hdraws.nonempty
  have hword := Decimal.toRat_of_ofParts? ((hdrawn _ _ hdraws).1 c)
  rw [le_antisymm hhi hlo, pow_zero, div_one] at hword
  exact hword

end NumberRange

end DataContract
