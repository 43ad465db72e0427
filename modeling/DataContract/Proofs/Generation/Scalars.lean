import DataContract.Proofs.Formats
import DataContract.Proofs.Generation.Numbers
import DataContract.Proofs.ValueEquality

/-!
# Generated scalars are accepted

A scalar whose bounds come from the constructors that check them accepts what it generates. It reads
everything that it accepts again from its text (`Scalar.parse_literal`), and the text of what it
generates has neither blank characters nor commas.
-/

namespace DataContract

namespace LengthRange

variable {r : LengthRange}

/-- The bounds of a range do not contradict each other. -/
def Consistent (r : LengthRange) : Prop :=
  ∀ lo ∈ r.minLength, ∀ hi ∈ r.maxLength, lo ≤ hi

/-- The constructor that checks bounds makes ranges that some length is in. -/
theorem consistent_of_bounded {lo hi : Option Nat} (h : bounded lo hi = .ok r) :
    r.Consistent := by
  unfold bounded at h
  split at h
  · next a b =>
    split at h
    · cases h
    · next hlt =>
      cases h
      rintro _ ⟨rfl⟩ _ ⟨rfl⟩
      omega
  · next hne =>
    cases h
    intro a ha b hb
    exact (hne a b ha hb).elim

/-- A generated string has a length that is in the range. -/
theorem check_generate (h : r.Consistent) (c : Choices) : r.check (r.generate c) = .success := by
  have hlen : (r.generate c).length = r.drawLength := by
    rw [generate, Choices.word, String.length_ofList, Choices.length_chars]
  rw [check_iff, hlen]
  unfold drawLength
  cases hmin : r.minLength with
  | none =>
    cases hmax : r.maxLength with
    | none => exact ⟨nofun, nofun⟩
    | some b =>
      refine ⟨nofun, ?_⟩
      rintro _ ⟨rfl⟩
      exact Nat.min_le_right _ _
  | some a =>
    cases hmax : r.maxLength with
    | none =>
      refine ⟨?_, nofun⟩
      rintro _ ⟨rfl⟩
      exact Nat.le_max_right _ _
    | some b =>
      have := h a hmin b hmax
      constructor
      · rintro _ ⟨rfl⟩
        exact Nat.le_max_right _ _
      · rintro _ ⟨rfl⟩
        exact Nat.max_le.2 ⟨Nat.min_le_right _ _, this⟩

end LengthRange

namespace Scalar

variable {s : Scalar}

/-- The bounds of the scalar come from the constructor that checks them. -/
def Checked : Scalar → Prop
  | .number r => ∃ lo hi integer, NumberRange.bounded lo hi integer = .ok r
  | .string r => ∃ lo hi, LengthRange.bounded lo hi = .ok r
  | _ => True

/-- A scalar accepts what it generates. -/
theorem check_generate (h : s.Checked) (c : Choices) : s.check (s.generate c) = .success := by
  cases s with
  | number r =>
    obtain ⟨lo, hi, integer, hr⟩ := h
    exact NumberRange.check_generate (NumberRange.consistent_of_bounded hr) c
  | string r =>
    obtain ⟨lo, hi, hr⟩ := h
    exact LengthRange.check_generate (LengthRange.consistent_of_bounded hr) c
  | boolean | null | binary | emptyString => rfl
  | date => simp [check, generate, format?, CalendarDate.accepts_generate]
  | dateTime => simp [check, generate, format?, Timestamp.accepts_generate]
  | uuid => simp [check, generate, format?, Uuid.accepts_generate]
  | email => simp [check, generate, format?, Email.accepts_generate]
  | base64 => simp [check, generate, format?, Base64.accepts_generate]

/-- A scalar reads the values of its family from their texts, as equal ones. -/
theorem read_literal {v : Value} (h : Family.ofValue v = s.family) :
    ∃ w, s.read v.literal = .ok w ∧ w.equal v = true := by
  cases v with
  | null =>
    cases s with
    | null => exact ⟨.null, rfl, rfl⟩
    | _ => cases h
  | boolean b =>
    cases s with
    | boolean => cases b <;> exact ⟨_, rfl, rfl⟩
    | _ => cases h
  | number d =>
    cases s with
    | number r =>
      refine ⟨.number d.normalize, ?_, Decimal.normalize_equal d⟩
      simp [read, Value.literal, Value.display, Decimal.readDecimal_text, Except.map]
    | _ => cases h
  | string text =>
    cases s with
    | number | boolean | null => cases h
    | _ => exact ⟨_, rfl, Value.equal_self _⟩
  | object | array | xml => cases s <;> cases h

/-- A scalar reads the values that it accepts from their texts, as equal ones. -/
theorem parse_literal {v : Value} (h : s.check v = .success) :
    ∃ w, s.parse v.literal = .ok w ∧ w.equal v = true := by
  obtain ⟨w, hread, hw⟩ := read_literal (family_of_check h)
  have hagree : (s.check w).isSuccess = (s.check v).isSuccess := check_congr s hw
  rw [h] at hagree
  refine ⟨w, parse_eq_ok_iff.2 ⟨hread, ?_⟩, hw⟩
  cases hc : s.check w with
  | success => rfl
  | failure f => rw [hc] at hagree; cases hagree

/-- The text of a generated scalar has neither blank characters nor commas. -/
theorem solid_literal_generate (s : Scalar) (c : Choices) :
    Text.Solid (s.generate c).literal.toList := by
  have hword (n : Nat) : Text.Solid (c.chars Choices.letters n) :=
    c.solid_chars n Choices.letters_ne_nil Choices.solid_letters
  cases s with
  | number r =>
    intro d hd
    simp only [generate, Value.literal, Value.display, Decimal.text, String.toList_ofList] at hd
    exact Decimal.isBlank_of_mem_chars hd
  | boolean =>
    cases hc : c.coin <;> simp only [generate, hc, Value.literal, Value.display] <;>
      decide
  | null | emptyString => exact Text.solid_nil
  | string r =>
    simp only [generate, Value.literal, LengthRange.generate, Choices.word, String.toList_ofList]
    exact hword _
  | binary =>
    simp only [generate, Value.literal, Choices.word, String.toList_ofList]
    exact hword _
  | _ => simp [generate, Value.literal]

end Scalar

end DataContract
