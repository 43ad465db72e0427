import DataContract.Proofs.Negatives.Structures
import DataContract.Proofs.Texts

/-!
# Texts of negatives are not read

The negatives of a text are scalars of another family, and in place of strings, which could be
anything, a fixed word. Nothing that they generate for a number or a boolean is blank or read again
(`Negatives.unreadable_of_mem_text`).
-/

namespace DataContract

/-- A number or a boolean does not read the literal of the other. -/
theorem Scalar.unreadable_generate {s t : Scalar} (hs : s.IsNumberOrBoolean)
    (ht : t.IsNumberOrBoolean) (hne : s.family ≠ t.family) (c : Choices) :
    s.Unreadable (t.generate c).literal := by
  have hgenerated : Family.ofValue (t.generate c) = t.family := Negatives.family_generate t c
  have hstring : s.family ≠ .string := by
    rcases hs.family with h | h <;> rw [h] <;> decide
  exact unreadable_literal (hgenerated ▸ ht.family) (hgenerated ▸ hne) hstring

namespace Negatives

variable {row : Row} {r : Resolver} {s : Scalar} {q : Pattern} {n : Nat}

/-- A negative of the text of an element is a scalar or a word, and generates only what is not
read. -/
theorem unreadable_of_mem_text (hs : s.IsNumberOrBoolean)
    (hq : q ∈ (text (ofBudget n) (.scalar s) row r).toList) :
    isSimple q = true ∧ ∀ r v, q.Generates v r → s.Unreadable v.literal := by
  have hquoted : isStringScalar (.scalar s) = false := by
    cases s with
    | number | boolean => rfl
    | _ => exact hs.elim
  have hword : isSimple (.exact (.string ("not " ++ s.typeName))) = true ∧
      ∀ r v, (Pattern.exact (.string ("not " ++ s.typeName))).Generates v r →
        s.Unreadable v.literal := by
    refine ⟨rfl, fun r v hv => ?_⟩
    rw [Pattern.eq_of_generates_exact hv]
    exact Scalar.unreadable_word hs
  unfold text at hq
  rw [hquoted, if_neg Bool.false_ne_true, LazyList.toList_map, LazyList.toList_filter] at hq
  obtain ⟨negative, hmem, rfl⟩ := List.mem_map.1 hq
  obtain ⟨hmem, hnull⟩ := List.mem_filter.1 hmem
  cases n with
  | zero => cases hmem
  | succ n =>
    have hmem : negative ∈ (LazyList.ofList (ofFamily s.family)).toList := hmem
    rw [LazyList.toList_ofList] at hmem
    cases s with
    | number range =>
      obtain rfl | rfl | rfl : negative = .null ∨ negative = .boolean ∨ negative = .string := by
        simpa [ofFamily, Scalar.family] using hmem
      · cases hnull
      · refine ⟨rfl, fun r v hv => ?_⟩
        obtain ⟨c, rfl⟩ := Pattern.exists_of_generates_scalar hv
        have hne : Family.number ≠ .boolean := by decide
        exact Scalar.unreadable_generate (t := .boolean) hs trivial hne c
      · exact hword
    | boolean =>
      obtain rfl | rfl | rfl : negative = .null ∨ negative = .number ∨ negative = .string := by
        simpa [ofFamily, Scalar.family] using hmem
      · cases hnull
      · refine ⟨rfl, fun r v hv => ?_⟩
        obtain ⟨c, rfl⟩ := Pattern.exists_of_generates_scalar hv
        have hne : Family.boolean ≠ .number := by decide
        exact Scalar.unreadable_generate (t := .number .any) hs trivial hne c
      · exact hword
    | _ => exact hs.elim

end Negatives

end DataContract
