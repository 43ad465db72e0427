import DataContract.Proofs.DecimalOrder
import DataContract.Scalar.Containment
import DataContract.Scalar.Matching

/-!
# Ranges

What the ranges of numbers and of lengths hold, read as inequalities of rational and of natural
numbers, and from that: a range, and a scalar, that contains another one accepts what the other one
accepts.
-/

namespace DataContract

namespace NumberRange

variable {a b r : NumberRange} {d : Decimal}

/-- A range holds the numbers between its bounds, only whole ones if it says so. -/
theorem check_iff :
    r.check d = .success ↔ (r.integer = true → d.isWhole = true) ∧
      (∀ lo ∈ r.minimum, lo.toRat ≤ d.toRat) ∧ ∀ hi ∈ r.maximum, d.toRat ≤ hi.toRat := by
  have hmin : r.minimum.filter d.lt = none ↔ ∀ lo ∈ r.minimum, lo.toRat ≤ d.toRat := by
    simp only [Option.filter_eq_none_iff, Decimal.lt_iff, not_lt, Option.mem_def]
  have hmax : r.maximum.filter (·.lt d) = none ↔ ∀ hi ∈ r.maximum, d.toRat ≤ hi.toRat := by
    simp only [Option.filter_eq_none_iff, Decimal.lt_iff, not_lt, Option.mem_def]
  rw [← hmin, ← hmax]
  unfold check
  dsimp only
  split
  · next h =>
    simp only [Bool.and_eq_true, Bool.not_eq_true'] at h
    simp [MatchResult.mismatch, MatchResult.fail, h]
  · next h =>
    have hwhole : r.integer = true → d.isWhole = true := by simpa using h
    split
    · next hlo => simp [MatchResult.mismatch, MatchResult.fail, hlo]
    · next hlo =>
      split
      · next hhi => simp [MatchResult.mismatch, MatchResult.fail, hhi]
      · next hhi => simpa [hlo, hhi] using hwhole

/-- What a range that contains another one asks of a number, the other one asks as well. -/
theorem bounds_of_encompasses (h : a.encompasses b = .success) :
    (a.integer = true → b.integer = true) ∧
      (∀ lo ∈ a.minimum, ∃ lo' ∈ b.minimum, lo.toRat ≤ lo'.toRat) ∧
      ∀ hi ∈ a.maximum, ∃ hi' ∈ b.maximum, hi'.toRat ≤ hi.toRat := by
  have hle (x : Option Decimal) (f : Decimal → Bool) :
      (x.map f).getD false = true ↔ ∃ y ∈ x, f y = true := by
    cases x <;> simp
  unfold encompasses at h
  dsimp only at h
  split at h
  · exact nomatch h
  · next hint =>
    refine ⟨by simpa using hint, ?_, ?_⟩
    · rintro lo hlo
      rw [Option.mem_def.1 hlo] at h
      dsimp only at h
      split at h
      · next hb => simpa only [hle, Decimal.le_iff] using hb
      · exact nomatch h
    · rintro hi hhi
      rw [Option.mem_def.1 hhi] at h
      dsimp only at h
      by_cases ha : (b.maximum.map (·.le hi)).getD false = true
      · simpa only [hle, Decimal.le_iff] using ha
      · rw [if_neg ha] at h
        split at h
        · exact nomatch h
        · split at h <;> exact nomatch h

/-- A number within the narrower range is within the wider one. -/
theorem check_of_encompasses (h : a.encompasses b = .success) (hd : b.check d = .success) :
    a.check d = .success := by
  obtain ⟨hint, hmin, hmax⟩ := bounds_of_encompasses h
  obtain ⟨hwhole, hlo, hhi⟩ := check_iff.1 hd
  refine check_iff.2 ⟨fun ha => hwhole (hint ha), fun lo hm => ?_, fun hi hm => ?_⟩
  · obtain ⟨lo', hm', hle⟩ := hmin lo hm
    exact hle.trans (hlo lo' hm')
  · obtain ⟨hi', hm', hle⟩ := hmax hi hm
    exact (hhi hi' hm').trans hle

/-- Equal bounds are both absent or equal numbers. -/
theorem bounds_of_beq {x y : Option Decimal} (h : (x == y) = true) :
    (x = none ∧ y = none) ∨ ∃ c d, x = some c ∧ y = some d ∧ c.toRat = d.toRat := by
  cases x with
  | none =>
    cases y with
    | none => exact .inl ⟨rfl, rfl⟩
    | some d => cases h
  | some c =>
    cases y with
    | none => cases h
    | some d => exact .inr ⟨c, d, rfl, rfl, Decimal.equal_iff.1 h⟩

/-- A range contains an equal one. -/
theorem encompasses_of_equal (h : a.equal b = true) : a.encompasses b = .success := by
  simp only [equal, Bool.and_eq_true] at h
  obtain ⟨⟨hlo, hhi⟩, hwhole⟩ := h
  have hinteger : (a.integer && !b.integer) = false := by simp [eq_of_beq hwhole]
  unfold encompasses
  rw [hinteger]
  rcases bounds_of_beq hlo with ⟨ha, hb⟩ | ⟨c, d, ha, hb, hcd⟩
  · rcases bounds_of_beq hhi with ⟨ha', hb'⟩ | ⟨c', d', ha', hb', hcd'⟩
    · simp [ha, ha']
    · simp [ha, ha', hb', Decimal.le_iff, hcd']
  · rcases bounds_of_beq hhi with ⟨ha', hb'⟩ | ⟨c', d', ha', hb', hcd'⟩
    · simp [ha, hb, ha', Decimal.le_iff, hcd]
    · simp [ha, hb, ha', hb', Decimal.le_iff, hcd, hcd']

end NumberRange

namespace LengthRange

variable {a b r : LengthRange} {text : String}

/-- A range holds the strings with lengths between its bounds. -/
theorem check_iff :
    r.check text = .success ↔ (∀ lo ∈ r.minLength, lo ≤ text.length) ∧
      ∀ hi ∈ r.maxLength, text.length ≤ hi := by
  have hmin : r.minLength.filter (text.length < ·) = none ↔
      ∀ lo ∈ r.minLength, lo ≤ text.length := by
    simp only [Option.filter_eq_none_iff, decide_eq_true_eq, not_lt, Option.mem_def]
  have hmax : r.maxLength.filter (text.length > ·) = none ↔
      ∀ hi ∈ r.maxLength, text.length ≤ hi := by
    simp only [Option.filter_eq_none_iff, decide_eq_true_eq, gt_iff_lt, not_lt, Option.mem_def]
  rw [← hmin, ← hmax]
  unfold check
  dsimp only
  split
  · next hlo => simp [MatchResult.mismatch, MatchResult.fail, hlo]
  · next hlo =>
    split
    · next hhi => simp [MatchResult.mismatch, MatchResult.fail, hhi]
    · next hhi => simp [hlo, hhi]

/-- A length without bounds holds every text. -/
theorem check_of_isUnbounded (h : r.isUnbounded = true) (text : String) :
    r.check text = .success := by
  simp only [isUnbounded, Bool.and_eq_true, beq_iff_eq, Option.isNone_iff_eq_none] at h
  refine check_iff.2 ⟨fun lo hm => ?_, fun hi hm => ?_⟩
  · have hlo := h.1
    rw [Option.mem_def.1 hm, Option.getD_some] at hlo
    omega
  · rw [h.2] at hm
    cases hm

/-- A text within the narrower range of lengths is within the wider one. -/
theorem check_of_encompasses (h : a.encompasses b = .success) (hd : b.check text = .success) :
    a.check text = .success := by
  obtain ⟨hlo, hhi⟩ := check_iff.1 hd
  unfold encompasses at h
  dsimp only at h
  split at h
  · exact nomatch h
  · next hmin =>
    refine check_iff.2 ⟨fun lo hm => ?_, fun hi hm => ?_⟩
    · rw [Option.mem_def.1 hm, Option.getD_some] at hmin
      cases hb : b.minLength with
      | none => simp [hb] at hmin; omega
      | some lo' =>
        have := hlo lo' hb
        simp [hb] at hmin
        omega
    · rw [Option.mem_def.1 hm] at h
      cases hb : b.maxLength with
      | none => simp [hb, MatchResult.fail] at h
      | some hi' =>
        have := hhi hi' hb
        simp only [hb, Option.map_some, Option.getD_some, decide_eq_true_eq] at h
        split at h
        · omega
        · exact nomatch h

/-- A range contains itself. -/
theorem encompasses_self (r : LengthRange) : r.encompasses r = .success := by
  unfold encompasses
  cases r.maxLength <;> simp

end LengthRange

namespace Scalar

variable {a b : Scalar} {v : Value} {text : String}

/-- A scalar accepts only values that travel as its values do. -/
theorem family_of_check (h : a.check v = .success) : Family.ofValue v = a.family := by
  cases a <;> cases v <;>
    first
    | rfl
    | simp [check, format?, MatchResult.mismatch, MatchResult.fail] at h

/-- Null is the only value that null accepts. -/
theorem eq_null_of_check (h : null.check v = .success) : v = .null := by
  cases v with
  | null => rfl
  | _ => cases family_of_check h

/-- The values of the string family are the strings. -/
theorem exists_string_of_family (h : Family.ofValue v = .string) : ∃ text, v = .string text := by
  cases v with
  | string text => exact ⟨text, rfl⟩
  | _ => cases h

/-- Scalars of one kind are equal, or both are ranges of numbers or of lengths. -/
theorem eq_of_sameKind (h : a.sameKind b = true) :
    a = b ∨ (∃ r q, a = .number r ∧ b = .number q) ∨ ∃ r q, a = .string r ∧ b = .string q := by
  cases a <;> cases b <;> simp [sameKind, typeName] at h ⊢

/-- The empty string passes a range of lengths that starts at zero or has no bounds. -/
theorem check_string_of_check_emptyString {r : LengthRange}
    (h : emptyString.check (.string text) = .success)
    (hr : r.minLength.getD 0 = 0 ∨ r.isUnbounded = true) :
    (string r).check (.string text) = .success := by
  rcases hr with hr | hr
  · simp only [check] at h
    split at h
    · next he =>
      rw [String.isEmpty_iff] at he
      subst he
      refine LengthRange.check_iff.2 ⟨fun lo hm => ?_, fun hi _ => Nat.zero_le _⟩
      rw [Option.mem_def.1 hm, Option.getD_some] at hr
      omega
    · exact nomatch h
  · exact LengthRange.check_of_isUnbounded hr text

/-- Scalars of one kind that have no bounds accept the same values. -/
theorem check_of_sameKind {message : String}
    (h : (if a.sameKind b then MatchResult.success else .fail message) = .success)
    (hn : ∀ r q, a = .number r → b = .number q → False)
    (hs : ∀ r q, a = .string r → b = .string q → False) (hv : b.check v = .success) :
    a.check v = .success := by
  split at h
  · next hkind =>
    rcases eq_of_sameKind hkind with rfl | ⟨r, q, ha, hb⟩ | ⟨r, q, ha, hb⟩
    · exact hv
    · exact (hn r q ha hb).elim
    · exact (hs r q ha hb).elim
  · exact nomatch h

/-- A scalar accepts what a scalar that it contains accepts. -/
theorem check_of_encompasses (h : a.encompasses b = .success) (hv : b.check v = .success) :
    a.check v = .success := by
  have hfamily := family_of_check hv
  unfold encompasses at h
  dsimp only at h
  split at h
  · next r q =>
    cases v with
    | number d => exact NumberRange.check_of_encompasses h hv
    | _ => cases hfamily
  · next r q =>
    obtain ⟨text, rfl⟩ := exists_string_of_family hfamily
    exact LengthRange.check_of_encompasses h hv
  · next r hb =>
    split at h
    · split at h
      · next hfits =>
        obtain ⟨text, rfl⟩ := exists_string_of_family hfamily
        exact check_string_of_check_emptyString hv (by simpa [family] using hfits)
      · exact check_of_sameKind h (fun _ _ ha => nomatch ha) (fun _ _ _ hb => nomatch hb) hv
    · split at h
      · next hfits =>
        simp only [Bool.false_or, Bool.and_eq_true, decide_eq_true_eq] at hfits
        obtain ⟨text, rfl⟩ := exists_string_of_family (hfamily.trans hfits.1)
        exact LengthRange.check_of_isUnbounded hfits.2 text
      · exact check_of_sameKind h (fun _ _ ha => nomatch ha) (fun _ q _ he => hb q he) hv
  · split at h
    · next hb =>
      obtain ⟨text, rfl⟩ := exists_string_of_family (hfamily.trans hb)
      rfl
    · exact check_of_sameKind h (fun _ _ ha => nomatch ha) (fun _ _ ha => nomatch ha) hv
  · next hn hs => exact check_of_sameKind h hn hs hv

/-- A scalar contains an equal one. -/
theorem encompasses_of_equal (h : a.equal b = true) : a.encompasses b = .success := by
  cases a with
  | number r =>
    cases b with
    | number q => exact NumberRange.encompasses_of_equal h
    | _ => cases h
  | string r =>
    cases b with
    | string q =>
      obtain rfl : r = q := eq_of_beq h
      exact r.encompasses_self
    | _ => cases h
  | _ => cases b <;> first | rfl | cases h

/-- A scalar reads its values from text as every scalar that travels as they do. -/
theorem read_congr (h : a.family = b.family) (text : String) : a.read text = b.read text := by
  cases a <;> cases b <;> first | (cases h; done) | rfl

/-- Parsing reads the text as the kind of the scalar and then checks its bounds. -/
theorem parse_eq_ok_iff : a.parse text = .ok v ↔ a.read text = .ok v ∧ a.check v = .success := by
  unfold parse
  cases a.read text with
  | error err => simp
  | ok w =>
    cases hc : a.check w with
    | success =>
      simp only [hc, Except.ok.injEq]
      exact ⟨fun h => ⟨h, h ▸ hc⟩, And.left⟩
    | failure f =>
      simp only [hc, Except.ok.injEq]
      refine iff_of_false nofun ?_
      rintro ⟨rfl, h⟩
      exact nomatch hc.symm.trans h

/-- A text that a contained scalar reads is read by the containing one, as the same value. -/
theorem parse_of_encompasses (h : a.encompasses b = .success) (hv : b.parse text = .ok v) :
    a.parse text = .ok v := by
  obtain ⟨hr, hb⟩ := parse_eq_ok_iff.1 hv
  have ha := check_of_encompasses h hb
  have hf : a.family = b.family := (family_of_check ha).symm.trans (family_of_check hb)
  exact parse_eq_ok_iff.2 ⟨(read_congr hf text).trans hr, ha⟩

end Scalar

end DataContract
