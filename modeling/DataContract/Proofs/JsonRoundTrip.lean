import DataContract.Proofs.JsonNumbers
import DataContract.Proofs.Outcomes
import DataContract.Proofs.ValueEquality

/-!
# Values through JSON

Structure survives being written as JSON and read back, so a value that holds no XML comes back as
the same data exactly if the scalars in it do (`Value.roundTrips_iff_leaves`). Of these only numbers
are at risk, since a JSON number is an integer of a 64-bit word or else a binary number. Integers of
such a word come back, and so do numbers of at most fifteen digits that are written without an
exponent (`Value.roundTrips_of_scalars`); a fraction of nineteen digits comes back as another one
(`Value.longFraction_not_roundTrips`).
-/

namespace DataContract

namespace Decimal

variable {n scale : Nat} {d : Decimal}

/-- Dropping zeros of a fraction that has nothing else leaves the whole part. -/
theorem dropZeros_of_dvd (h : n % 10 ^ scale = 0) : dropZeros scale n = (n / 10 ^ scale, 0) := by
  induction scale generalizing n with
  | zero => simp [dropZeros]
  | succ scale ih =>
    obtain ⟨m, rfl⟩ := Nat.dvd_of_mod_eq_zero h
    have hten : 10 ^ (scale + 1) * m = 10 * (10 ^ scale * m) := by
      rw [pow_succ]
      ring
    have hpos : 0 < 10 ^ scale := by positivity
    rw [dropZeros, hten, if_pos (Nat.mul_mod_right 10 _), Nat.mul_div_cancel_left _ (by decide),
      ih (Nat.mul_mod_right _ _), Nat.mul_div_cancel_left _ hpos, ← hten,
      Nat.mul_div_cancel_left _ (by positivity)]

/-- In normal form a whole number has no fraction digits. -/
theorem scale_normalize_of_isWhole (h : d.isWhole = true) : d.normalize.scale = 0 := by
  rw [isWhole, beq_iff_eq] at h
  simp [normalize, dropZeros_of_dvd h]

/-- The number is an integer of a 64-bit word, signed or unsigned. -/
def IsWord (d : Decimal) : Prop :=
  ∃ n : ℤ, d.toRat = n ∧ -2 ^ 63 ≤ n ∧ n < 2 ^ 64

/-- In normal form such a number is its coefficient. -/
theorem IsWord.normalize (h : d.IsWord) :
    d.normalize.scale = 0 ∧ -2 ^ 63 ≤ d.normalize.coefficient ∧
      d.normalize.coefficient < 2 ^ 64 := by
  obtain ⟨n, hn, hlo, hhi⟩ := h
  have hs : d.normalize.scale = 0 := scale_normalize_of_isWhole (isWhole_iff.2 ⟨n, hn⟩)
  have hc : d.normalize.coefficient = n := by
    have := toRat_normalize d
    rw [hn, toRat, hs, pow_zero, div_one] at this
    exact_mod_cast this
  exact ⟨hs, hc ▸ hlo, hc ▸ hhi⟩

/-- The number has at most fifteen digits, wherever the point stands, and is not below a
hundred-thousandth. -/
def IsShort (d : Decimal) : Prop :=
  ∃ (n : ℤ) (k : ℕ), d.toRat = n / 10 ^ k ∧ |n| < 10 ^ 15 ∧ 1 / 10 ^ 5 ≤ |d.toRat|

/-- Up to the sign, a decimal is its magnitude over the power of ten. -/
theorem abs_toRat (d : Decimal) : |d.toRat| = d.magnitude / 10 ^ d.scale := by
  have hpos : (0 : ℚ) ≤ d.magnitude / 10 ^ d.scale := by positivity
  rw [toRat_eq]
  split
  · rw [abs_neg, abs_of_nonneg hpos]
  · exact abs_of_nonneg hpos

/-- Where a fraction is left, dropping zeros stopped at another digit. -/
theorem dropZeros_mod (h : (dropZeros scale n).2 ≠ 0) : (dropZeros scale n).1 % 10 ≠ 0 := by
  induction scale generalizing n with
  | zero => exact absurd rfl h
  | succ scale ih =>
    rw [dropZeros] at h ⊢
    split
    · next hn =>
      rw [if_pos hn] at h
      exact ih h
    · next hn => exact hn

/-- A number of at most fifteen digits that is whole in normal form is one of a word. -/
theorem IsShort.isWord (h : d.IsShort) (hscale : d.normalize.scale = 0) : d.IsWord := by
  obtain ⟨n, k, hn, hlt, -⟩ := h
  have hvalue : d.toRat = d.normalize.coefficient := by
    rw [← toRat_normalize, toRat, hscale, pow_zero, div_one]
  have hle : |d.normalize.coefficient| ≤ |n| := by
    have hten : (1 : ℚ) ≤ 10 ^ k := one_le_pow₀ (by norm_num)
    have : |(d.normalize.coefficient : ℚ)| ≤ |(n : ℚ)| := by
      rw [← hvalue, hn, abs_div, abs_of_pos (show (0 : ℚ) < 10 ^ k by positivity)]
      exact div_le_self (abs_nonneg _) hten
    exact_mod_cast this
  obtain ⟨hlow, hhigh⟩ := abs_le.1 (hle.trans hlt.le)
  exact ⟨_, hvalue, by omega, by omega⟩

/-- Otherwise its normal form is a fraction of at most fifteen digits. -/
theorem IsShort.normalize (h : d.IsShort) (hscale : d.normalize.scale ≠ 0) :
    d.normalize.magnitude % 10 ≠ 0 ∧ d.normalize.magnitude < 10 ^ 15 ∧
      10 ^ d.normalize.scale ≤ d.normalize.magnitude * 10 ^ 5 := by
  obtain ⟨n, k, hn, hlt, hlow⟩ := h
  have hlast : d.normalize.magnitude % 10 ≠ 0 := dropZeros_mod hscale
  rw [← toRat_normalize, abs_toRat] at hlow
  have habs := congrArg abs hn
  rw [← toRat_normalize, abs_toRat, abs_div, abs_of_pos (show (0 : ℚ) < 10 ^ k by positivity),
    div_eq_div_iff (by positivity) (by positivity), ← Int.cast_abs, ← Nat.cast_natAbs] at habs
  have hsame : n.natAbs * 10 ^ d.normalize.scale = d.normalize.magnitude * 10 ^ k := by
    exact_mod_cast habs.symm
  obtain ⟨t, -, ht⟩ := Binary64.exists_eq_mul_pow hlast hsame
  refine ⟨hlast, ?_, ?_⟩
  · have hle : d.normalize.magnitude ≤ n.natAbs :=
      ht ▸ Nat.le_mul_of_pos_right _ (by positivity)
    rw [Int.abs_eq_natAbs] at hlt
    omega
  · rw [div_le_div_iff₀ (by positivity) (by positivity), one_mul] at hlow
    exact_mod_cast hlow

end Decimal

namespace Value

/-- Written as JSON and read back, the value is the same data. -/
def RoundTrips (v : Value) : Prop :=
  ∃ w, ofJson v.toJson = .ok w ∧ v.equal w = true

/-! ## Structure -/

mutual

/-- The scalars and the XML nodes in a value. -/
def leaves : Value → List Value
  | .object members => leavesOfMembers members
  | .array items => leavesOfItems items
  | .null => [.null]
  | .boolean b => [.boolean b]
  | .number d => [.number d]
  | .string s => [.string s]
  | .xml name attributes children => [.xml name attributes children]

/-- The scalars and the XML nodes in the items. -/
def leavesOfItems : List Value → List Value
  | [] => []
  | v :: vs => leaves v ++ leavesOfItems vs

/-- The scalars and the XML nodes in the members. -/
def leavesOfMembers : List (String × Value) → List Value
  | [] => []
  | (_, v) :: ms => leaves v ++ leavesOfMembers ms

end

variable {v : Value} {vs : List Value} {ms : List (String × Value)}

/-- The items of a list come back exactly if each of them does. -/
theorem roundTrips_items_iff :
    (∃ ws, ofJsonItems (toJsonItems vs) = .ok ws ∧ equalItems vs ws = true) ↔
      ∀ v ∈ vs, v.RoundTrips := by
  induction vs with
  | nil => exact ⟨fun _ => nofun, fun _ => ⟨[], rfl, rfl⟩⟩
  | cons v vs ih =>
    rw [List.forall_mem_cons, ← ih]
    cases hv : ofJson v.toJson with
    | error e =>
      simp [toJsonItems, ofJsonItems, RoundTrips, hv]
    | ok w =>
      cases hvs : ofJsonItems (toJsonItems vs) with
      | error e => simp [toJsonItems, ofJsonItems, hv, hvs, Except.map]
      | ok ws => simp [toJsonItems, ofJsonItems, RoundTrips, hv, hvs, Except.map, equalItems]

/-- The members of an object come back under their keys exactly if each of them does. -/
theorem roundTrips_members_iff :
    (∃ ns, ofJsonMembers (toJsonMembers ms) = .ok ns ∧ equalMembers ms ns = true) ↔
      ∀ m ∈ ms, m.2.RoundTrips := by
  induction ms with
  | nil => exact ⟨fun _ => nofun, fun _ => ⟨[], rfl, rfl⟩⟩
  | cons m ms ih =>
    rw [List.forall_mem_cons, ← ih]
    cases hv : ofJson m.2.toJson with
    | error e =>
      simp [toJsonMembers, ofJsonMembers, RoundTrips, hv]
    | ok w =>
      cases hms : ofJsonMembers (toJsonMembers ms) with
      | error e => simp [toJsonMembers, ofJsonMembers, hv, hms, Except.map]
      | ok ns =>
        simp [toJsonMembers, ofJsonMembers, RoundTrips, hv, hms, Except.map, equalMembers]

/-- An array comes back exactly if its items do. -/
theorem roundTrips_array_iff : (array vs).RoundTrips ↔ ∀ v ∈ vs, v.RoundTrips := by
  rw [← roundTrips_items_iff]
  constructor
  · rintro ⟨w, hw, he⟩
    rw [toJson, ofJson] at hw
    obtain ⟨ws, hws, rfl⟩ := map_eq_ok.1 hw
    rw [equal] at he
    exact ⟨ws, hws, he⟩
  · rintro ⟨ws, hws, he⟩
    refine ⟨.array ws, ?_, ?_⟩
    · rw [toJson, ofJson, hws]
      rfl
    · rw [equal]
      exact he

/-- An object comes back exactly if its members do. -/
theorem roundTrips_object_iff : (object ms).RoundTrips ↔ ∀ m ∈ ms, m.2.RoundTrips := by
  rw [← roundTrips_members_iff]
  constructor
  · rintro ⟨w, hw, he⟩
    rw [toJson, ofJson] at hw
    obtain ⟨ns, hns, rfl⟩ := map_eq_ok.1 hw
    rw [equal] at he
    exact ⟨ns, hns, he⟩
  · rintro ⟨ns, hns, he⟩
    refine ⟨.object ns, ?_, ?_⟩
    · rw [toJson, ofJson, hns]
      rfl
    · rw [equal]
      exact he

mutual

/-- A value comes back as the same data exactly if everything in it does. -/
theorem roundTrips_iff_leaves : ∀ v : Value, v.RoundTrips ↔ ∀ w ∈ v.leaves, w.RoundTrips
  | .object ms => by
    rw [roundTrips_object_iff, leaves, roundTrips_members_iff_leaves ms]
  | .array vs => by
    rw [roundTrips_array_iff, leaves, roundTrips_items_iff_leaves vs]
  | .null => by simp [leaves]
  | .boolean _ => by simp [leaves]
  | .number _ => by simp [leaves]
  | .string _ => by simp [leaves]
  | .xml .. => by simp [leaves]

/-- Items come back exactly if everything in them does. -/
theorem roundTrips_items_iff_leaves : ∀ vs : List Value,
    (∀ v ∈ vs, v.RoundTrips) ↔ ∀ w ∈ leavesOfItems vs, w.RoundTrips
  | [] => Iff.rfl
  | v :: vs => by
    rw [List.forall_mem_cons, leavesOfItems, List.forall_mem_append, roundTrips_iff_leaves v,
      roundTrips_items_iff_leaves vs]

/-- Members come back exactly if everything in them does. -/
theorem roundTrips_members_iff_leaves : ∀ ms : List (String × Value),
    (∀ m ∈ ms, m.2.RoundTrips) ↔ ∀ w ∈ leavesOfMembers ms, w.RoundTrips
  | [] => ⟨fun _ => nofun, fun _ => nofun⟩
  | (_, v) :: ms => by
    rw [List.forall_mem_cons, leavesOfMembers, List.forall_mem_append, roundTrips_iff_leaves v,
      roundTrips_members_iff_leaves ms]

end

/-! ## Scalars -/

/-- A decimal whose normal form is read from JSON as a number that is written the same comes
back. -/
theorem roundTrips_number {d : Decimal} {n : Json.Number}
    (hread : Json.Number.read? d.normalize.chars = some (n, []))
    (htext : n.chars = d.normalize.chars) : (number d).RoundTrips := by
  refine ⟨.number d.normalize, ?_, Decimal.equal_symm (Decimal.normalize_equal d)⟩
  have hnumber : n.text = d.normalize.text := by
    rw [Json.Number.text, htext]
    rfl
  rw [toJson, decimalToJson]
  simp only [hread]
  rw [ofJson, hnumber, Decimal.readDecimal_text]
  rfl

/-- An integer of a word comes back as an integer. -/
theorem roundTrips_word {d : Decimal} (h : d.IsWord) : (number d).RoundTrips := by
  obtain ⟨hscale, hlo, hhi⟩ := h.normalize
  obtain ⟨hread, htext⟩ :=
    Json.Number.read?_integer hscale hlo hhi Decimal.magnitude_normalize_ne_zero
  exact roundTrips_number hread htext

/-- A number of at most fifteen digits comes back, as an integer or through a binary number. -/
theorem roundTrips_short {d : Decimal} (h : d.IsShort) : (number d).RoundTrips := by
  rcases Nat.eq_zero_or_pos d.normalize.scale with hscale | hscale
  · exact roundTrips_word (h.isWord hscale)
  · obtain ⟨hlast, hlt, hlow⟩ := h.normalize hscale.ne'
    obtain ⟨x, hread, htext⟩ := Json.Number.read?_fraction hscale hlast hlt hlow
    exact roundTrips_number hread htext

/-- What JSON holds as it is: null, a boolean, a string, an integer of a 64-bit word, or a number of
at most fifteen digits that is not below a hundred-thousandth. -/
def IsJsonScalar : Value → Prop
  | .null => True
  | .boolean _ => True
  | .string _ => True
  | .number d => d.IsWord ∨ d.IsShort
  | .object _ => False
  | .array _ => False
  | .xml .. => False

/-- A value made of such scalars, nested in any way, comes back from JSON as the same data. -/
theorem roundTrips_of_scalars (h : ∀ w ∈ v.leaves, w.IsJsonScalar) : v.RoundTrips := by
  refine (roundTrips_iff_leaves v).2 fun w hw => ?_
  have hscalar := h w hw
  cases w with
  | null => exact ⟨.null, rfl, rfl⟩
  | boolean b => exact ⟨.boolean b, rfl, equal_self _⟩
  | string s => exact ⟨.string s, rfl, equal_self _⟩
  | number d => exact hscalar.elim roundTrips_word roundTrips_short
  | object | array | xml => exact hscalar.elim

/-- An object, null, minus one with two zeros behind the point, and ten and a tenth with a zero. -/
def mixedArray : Value :=
  .array [.object [("a", .string "x")], .null, .number ⟨true, 100, 2, by decide, by decide⟩,
    .number ⟨false, 1010, 2, by decide, by decide⟩]

/-- An array of an object, null, a whole number and a fraction comes back. -/
theorem mixedArray_roundTrips :
    (∀ w ∈ mixedArray.leaves, w.IsJsonScalar) ∧ mixedArray.RoundTrips := by
  have h : ∀ w ∈ mixedArray.leaves, w.IsJsonScalar := by
    intro w hw
    simp only [mixedArray, leaves, leavesOfItems, leavesOfMembers, List.append_nil,
      List.cons_append, List.nil_append, List.mem_cons, List.not_mem_nil, or_false] at hw
    rcases hw with rfl | rfl | rfl | rfl
    · trivial
    · trivial
    · refine .inl ⟨-1, ?_, by decide, by decide⟩
      rw [Decimal.toRat_eq]
      norm_num
    · refine .inr ⟨101, 1, ?_, by norm_num, ?_⟩
      · rw [Decimal.toRat_eq]
        norm_num
      · rw [Decimal.abs_toRat]
        norm_num
  exact ⟨h, roundTrips_of_scalars h⟩

/-- Nineteen digits behind the point. -/
def longFraction : Decimal := ⟨false, 1234567890123456789, 19, by decide, by decide⟩

/-- What comes back of them: the seventeen digits by which the nearest binary number is written. -/
def shortFraction : Decimal := ⟨false, 12345678901234568, 17, by decide, by decide⟩

set_option maxRecDepth 4000 in
/-- A fraction that is longer than a binary number can tell comes back as another number. -/
theorem longFraction_not_roundTrips :
    ofJson (toJson (.number longFraction)) = .ok (.number shortFraction) ∧
      ¬(number longFraction).RoundTrips := by
  have hread : ofJson (toJson (.number longFraction)) = .ok (.number shortFraction) := rfl
  refine ⟨hread, ?_⟩
  rintro ⟨w, hw, he⟩
  rw [hread] at hw
  cases hw
  revert he
  decide

end Value

end DataContract
