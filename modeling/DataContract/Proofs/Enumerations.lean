import DataContract.Proofs.Acceptance
import DataContract.Proofs.Ranges

/-!
# Enumerations

The constructor of an enumeration takes literals of one family that are neither null nor structures.
So what an enumeration accepts is of this family, or it is null and the enumeration is nullable
(`Pattern.family_of_enumeration`).
-/

namespace DataContract

namespace Enumeration

/-- The literals come from the constructor that checks them. -/
def Checked (e : Enumeration) : Prop :=
  ∃ values nullable e', ofValues values nullable = .ok e' ∧ e.literals = e'.literals

/-- The families of which there are literals. -/
def families (literals : List Value) : List Family :=
  [Family.boolean, .null, .number, .string, .structured].filter fun f =>
    literals.any fun v => Family.ofValue v = f

variable {e : Enumeration}

/-- The family of a literal is among the families of the literals. -/
theorem mem_families {literals : List Value} {v : Value} (hv : v ∈ literals) :
    Family.ofValue v ∈ families literals := by
  refine List.mem_filter.2 ⟨?_, List.any_eq_true.2 ⟨v, hv, by simp⟩⟩
  cases Family.ofValue v <;> decide

/-- A list of no more than one element has no two different ones. -/
theorem eq_of_length_le_one {l : List Family} {f g : Family} (hl : l.length ≤ 1) (hf : f ∈ l)
    (hg : g ∈ l) : f = g := by
  cases l with
  | nil => cases hf
  | cons a l =>
    obtain rfl := List.eq_nil_of_length_eq_zero (Nat.le_zero.1 (Nat.le_of_succ_le_succ hl))
    rw [List.mem_singleton.1 hf, List.mem_singleton.1 hg]

/-- What the constructor has checked. -/
theorem Checked.spec (h : e.Checked) :
    e.literals ≠ [] ∧ (∀ v ∈ e.literals, v.isNull = false) ∧ (families e.literals).length ≤ 1 ∧
      Family.structured ∉ families e.literals := by
  obtain ⟨values, nullable, e', he, hliterals⟩ := h
  unfold ofValues at he
  dsimp only at he
  split at he
  · cases he
  · next hne =>
    split at he
    · cases he
    · next hfamilies =>
      cases he
      rw [Bool.or_eq_true, not_or, decide_eq_true_eq, Nat.not_lt, List.contains_iff_mem]
        at hfamilies
      have hliterals : e.literals = values.filter (!·.isNull) := hliterals
      rw [← hliterals] at hne hfamilies
      refine ⟨fun hnil => hne (by rw [hnil]; rfl), fun v hv => ?_, hfamilies⟩
      rw [hliterals] at hv
      simpa using (List.mem_filter.1 hv).2

/-- Checked literals are some, and all of one family. -/
theorem Checked.uniform (h : e.Checked) :
    e.literals ≠ [] ∧ ∀ v ∈ e.literals, Family.ofValue v = e.family := by
  obtain ⟨hne, -, hlength, -⟩ := h.spec
  refine ⟨hne, fun v hv => ?_⟩
  obtain ⟨first, literals, hcons⟩ := List.exists_cons_of_ne_nil hne
  have hfirst : first ∈ e.literals := hcons ▸ List.mem_cons_self
  have hfamily : e.family = Family.ofValue first := by rw [family, hcons]
  rw [hfamily]
  exact eq_of_length_le_one hlength (mem_families hv) (mem_families hfirst)

/-- Checked literals are booleans, numbers or strings. -/
theorem Checked.family_cases (h : e.Checked) :
    e.family = .boolean ∨ e.family = .number ∨ e.family = .string := by
  obtain ⟨hne, hnull, -, hstructured⟩ := h.spec
  obtain ⟨first, literals, hcons⟩ := List.exists_cons_of_ne_nil hne
  have hfirst : first ∈ e.literals := hcons ▸ List.mem_cons_self
  have hmem := mem_families hfirst
  rw [family, hcons]
  cases first with
  | null => cases hnull _ hfirst
  | boolean | number | string => simp [Family.ofValue]
  | object | array | xml => exact absurd hmem hstructured

/-- The members besides null are the literals. -/
theorem nonNull_members (e : Enumeration) :
    Pattern.nonNull e.members = e.literals.map Pattern.exact := by
  have hliterals : (e.literals.map Pattern.exact).filter (!·.isNull) =
      e.literals.map Pattern.exact :=
    List.filter_eq_self.2 (by simp [Pattern.isNull])
  rw [members, Pattern.nonNull, List.filter_append, hliterals]
  split <;> simp [Pattern.null, Pattern.isNull]

/-- Null is a member if the enumeration is nullable. -/
theorem hasNull_members (e : Enumeration) : Pattern.hasNull e.members = e.nullable := by
  have hliterals : (e.literals.map Pattern.exact).any Pattern.isNull = false :=
    List.any_eq_false.2 (by simp [Pattern.isNull])
  rw [members, Pattern.hasNull, List.any_append, hliterals, Bool.false_or]
  cases e.nullable <;> rfl

end Enumeration

namespace Pattern

variable {shape : Enumeration} {v : Value} {r : Resolver}

/-- A checked enumeration accepts what equals a literal, and null if it is nullable. -/
theorem exists_literal_of_accepts (hl : r.config.mockMode = false) (hc : shape.Checked)
    (ha : (enumeration shape).Accepts v r) :
    (∃ w ∈ shape.literals, w.equal v = true) ∨ (shape.nullable = true ∧ v = .null) := by
  have hfits : FitsUnion shape.members v fun p v => p.Accepts v r := ha.fits hl
  rcases hfits with ⟨p, hp, ha⟩ | hnil
  · rcases List.mem_append.1 hp with hp | hp
    · obtain ⟨w, hw, rfl⟩ := List.mem_map.1 hp
      exact .inl ⟨w, hw, ha.fits hl⟩
    · split at hp
      · next hnullable =>
        obtain rfl := List.mem_singleton.1 hp
        exact .inr ⟨hnullable, Scalar.eq_null_of_check (ha.fits hl)⟩
      · cases hp
  · rw [shape.nonNull_members, List.map_eq_nil_iff] at hnil
    exact absurd hnil hc.uniform.1

/-- A checked enumeration accepts values of its family, and null if it is nullable. -/
theorem family_of_enumeration (hl : r.config.mockMode = false) (hc : shape.Checked)
    (ha : (enumeration shape).Accepts v r) :
    Family.ofValue v = shape.family ∨ (shape.nullable = true ∧ v = .null) := by
  refine (exists_literal_of_accepts hl hc ha).imp_left ?_
  rintro ⟨w, hw, heq⟩
  exact (Family.ofValue_congr heq).symm.trans (hc.uniform.2 w hw)

end Pattern

end DataContract
