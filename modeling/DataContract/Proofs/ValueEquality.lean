import DataContract.Proofs.DecimalOrder
import DataContract.Proofs.Verdict
import DataContract.Scalar.Matching
import DataContract.Value.Text
import Mathlib.Data.List.Forall2

/-!
# Equality of values

Values are equal as data: only their numbers may be written differently. `Value.Same` reads one
layer of that off the two values, and by it equality is symmetric and transitive, and no scalar
tells equal values apart.
-/

namespace DataContract

namespace Value

/-- Lists of values are equal when they agree in length and place by place. -/
theorem equalItems_iff {as bs : List Value} :
    equalItems as bs = true ↔ List.Forall₂ (fun a b => a.equal b = true) as bs := by
  induction as generalizing bs with
  | nil => cases bs <;> simp [equalItems]
  | cons a as ih => cases bs <;> simp [equalItems, ih]

/-- Lists of members are equal when they agree in length and, place by place, in key and value. -/
theorem equalMembers_iff {as bs : List (String × Value)} :
    equalMembers as bs = true ↔
      List.Forall₂ (fun a b => a.1 = b.1 ∧ a.2.equal b.2 = true) as bs := by
  induction as generalizing bs with
  | nil => cases bs <;> simp [equalMembers]
  | cons a as ih => cases bs <;> simp [equalMembers, ih, and_assoc]

/-- One layer of equal values: the same kind, with equal parts. -/
inductive Same : Value → Value → Prop
  | null : Same .null .null
  | boolean (b : Bool) : Same (.boolean b) (.boolean b)
  | number {a b : Decimal} : a.equal b = true → Same (.number a) (.number b)
  | string (s : String) : Same (.string s) (.string s)
  | object {as bs : List (String × Value)} :
    List.Forall₂ (fun a b => a.1 = b.1 ∧ a.2.equal b.2 = true) as bs →
      Same (.object as) (.object bs)
  | array {as bs : List Value} :
    List.Forall₂ (fun a b => a.equal b = true) as bs → Same (.array as) (.array bs)
  | xml (name : String) (attributes : List (String × String)) {as bs : List Value} :
    List.Forall₂ (fun a b => a.equal b = true) as bs →
      Same (.xml name attributes as) (.xml name attributes bs)

/-- Equal values have the same outermost form and equal parts. -/
theorem same_of_equal {v w : Value} (h : v.equal w = true) : Same v w := by
  cases v with
  | null => cases w <;> simp [equal] at h; exact .null
  | boolean b => cases w <;> simp [equal] at h; subst h; exact .boolean _
  | number d => cases w <;> simp [equal] at h; exact .number h
  | string s => cases w <;> simp [equal] at h; subst h; exact .string _
  | object ms => cases w <;> simp [equal, equalMembers_iff] at h; exact .object h
  | array vs => cases w <;> simp [equal, equalItems_iff] at h; exact .array h
  | xml n as cs =>
    cases w <;> simp [equal, equalItems_iff] at h
    obtain ⟨⟨rfl, rfl⟩, h⟩ := h
    exact .xml _ _ h

/-! ## Symmetry and transitivity -/

mutual

/-- Equality of values is symmetric. -/
theorem equal_symm : ∀ (v w : Value), v.equal w = true → w.equal v = true
  | .null, w, h => by cases same_of_equal h; rfl
  | .boolean _, w, h => by cases same_of_equal h; simp [equal]
  | .number _, w, h => by cases same_of_equal h with | number h => exact Decimal.equal_symm h
  | .string _, w, h => by cases same_of_equal h; simp [equal]
  | .object as, w, h => by cases same_of_equal h; exact equalMembers_symm as _ h
  | .array as, w, h => by cases same_of_equal h; exact equalItems_symm as _ h
  | .xml _ _ cs, w, h => by
    cases same_of_equal h
    simp only [equal, BEq.rfl, Bool.and_self, Bool.true_and] at h ⊢
    exact equalItems_symm cs _ h

/-- Equality of items is symmetric. -/
theorem equalItems_symm : ∀ as bs : List Value, equalItems as bs = true → equalItems bs as = true
  | [], [], _ => rfl
  | a :: as, b :: bs, h => by
    simp only [equalItems, Bool.and_eq_true] at h ⊢
    exact ⟨equal_symm a b h.1, equalItems_symm as bs h.2⟩

/-- Equality of members is symmetric. -/
theorem equalMembers_symm : ∀ as bs : List (String × Value),
    equalMembers as bs = true → equalMembers bs as = true
  | [], [], _ => rfl
  | (k, a) :: as, (l, b) :: bs, h => by
    simp only [equalMembers, Bool.and_eq_true, beq_iff_eq] at h ⊢
    exact ⟨⟨h.1.1.symm, equal_symm a b h.1.2⟩, equalMembers_symm as bs h.2⟩

end

mutual

/-- Equality of values is transitive. -/
theorem equal_trans : ∀ (u v w : Value), u.equal v = true → v.equal w = true → u.equal w = true
  | .null, _, _, h, h' => by cases same_of_equal h; exact h'
  | .boolean _, _, _, h, h' => by cases same_of_equal h; exact h'
  | .number _, _, _, h, h' => by
    cases same_of_equal h
    cases same_of_equal h'
    exact Decimal.equal_trans h h'
  | .string _, _, _, h, h' => by cases same_of_equal h; exact h'
  | .object as, _, _, h, h' => by
    cases same_of_equal h
    cases same_of_equal h'
    exact equalMembers_trans as _ _ h h'
  | .array as, _, _, h, h' => by
    cases same_of_equal h
    cases same_of_equal h'
    exact equalItems_trans as _ _ h h'
  | .xml _ _ cs, _, _, h, h' => by
    cases same_of_equal h
    cases same_of_equal h'
    simp only [equal, BEq.rfl, Bool.and_self, Bool.true_and] at h h' ⊢
    exact equalItems_trans cs _ _ h h'

/-- Equality of items is transitive. -/
theorem equalItems_trans : ∀ as bs cs : List Value,
    equalItems as bs = true → equalItems bs cs = true → equalItems as cs = true
  | [], [], _, _, h' => h'
  | a :: as, b :: bs, c :: cs, h, h' => by
    simp only [equalItems, Bool.and_eq_true] at h h' ⊢
    exact ⟨equal_trans a b c h.1 h'.1, equalItems_trans as bs cs h.2 h'.2⟩

/-- Equality of members is transitive. -/
theorem equalMembers_trans : ∀ as bs cs : List (String × Value),
    equalMembers as bs = true → equalMembers bs cs = true → equalMembers as cs = true
  | [], [], _, _, h' => h'
  | (_, a) :: as, (_, b) :: bs, (_, c) :: cs, h, h' => by
    simp only [equalMembers, Bool.and_eq_true, beq_iff_eq] at h h' ⊢
    exact ⟨⟨h.1.1.trans h'.1.1, equal_trans a b c h.1.2 h'.1.2⟩,
      equalMembers_trans as bs cs h.2 h'.2⟩

end

/-- The values that are equal to one of two equal values are equal to the other. -/
theorem equal_congr {u v w : Value} (h : v.equal w = true) : u.equal v = u.equal w :=
  Bool.eq_iff_iff.2 ⟨fun hu => equal_trans u v w hu h, fun hu => equal_trans u w v hu
    (equal_symm v w h)⟩

/-- The text of two equal contents is the same. -/
theorem textContent_congr {as bs : List Value}
    (h : List.Forall₂ (fun a b => a.equal b = true) as bs) : textContent as = textContent bs := by
  unfold textContent
  congr 1
  induction h with
  | nil => rfl
  | cons hab _ ih => cases same_of_equal hab <;> simp [ih]

end Value

/-- Equal values travel as the same. -/
theorem Family.ofValue_congr {v w : Value} (h : v.equal w = true) :
    Family.ofValue v = Family.ofValue w := by
  cases Value.same_of_equal h <;> rfl

/-! ## Scalars -/

namespace NumberRange

/-- A range holds equal numbers together. -/
theorem check_congr {a b : Decimal} (r : NumberRange) (h : a.equal b = true) :
    (r.check a).isSuccess = (r.check b).isSuccess := by
  have hlo : r.minimum.filter a.lt = r.minimum.filter b.lt := by
    cases r.minimum with
    | none => rfl
    | some lo => simp [Option.filter, Decimal.lt_congr_left h]
  have hhi : r.maximum.filter (·.lt a) = r.maximum.filter (·.lt b) := by
    cases r.maximum with
    | none => rfl
    | some hi => simp [Option.filter, Decimal.lt_congr_right h]
  unfold check
  rw [Decimal.isWhole_congr h, hlo, hhi]
  split
  · simp
  · split
    · simp
    · split <;> simp

end NumberRange

namespace Scalar

/-- A scalar accepts equal values together. -/
theorem check_congr {v w : Value} (s : Scalar) (h : v.equal w = true) :
    (s.check v).isSuccess = (s.check w).isSuccess := by
  cases Value.same_of_equal h with
  | null => rfl
  | boolean => rfl
  | string => rfl
  | number h =>
    cases s with
    | number r => exact r.check_congr h
    | _ => simp [check]
  | object => cases s <;> simp [check]
  | array => cases s <;> simp [check]
  | xml => cases s <;> simp [check]

end Scalar

end DataContract
