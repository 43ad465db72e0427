import DataContract.Proofs.Digits
import DataContract.Proofs.Ranges

/-!
# Texts of numbers and booleans

The literal of a number or a boolean is not blank and has no blank characters around it, and no
scalar of another family reads it, except as a string (`Scalar.exists_read_error`). As generic data
it is a string, too.
-/

namespace DataContract

namespace Decimal

variable {c : Char}

/-- A written number is made of digits, a point and a sign. -/
theorem mem_chars (d : Decimal) (h : c ∈ d.chars) : c.isDigit = true ∨ c = '.' ∨ c = '-' := by
  rw [chars_eq] at h
  rcases List.mem_append.1 h with h | h
  · split at h
    · exact .inr (.inr (List.mem_singleton.1 h))
    · cases h
  · rcases isDigit_or_point_of_mem d h with h | h
    · exact .inl h
    · exact .inr (.inl h)

/-- A written number has no blanks around it to trim. -/
theorem trim_text (d : Decimal) : Text.trim d.text = d.text := by
  rw [Text.trim, text, String.toList_ofList,
    Text.trimChars_of_forall fun c hc => (isBlank_of_mem_chars hc).1]

/-- Digits have no case. -/
theorem toLower_of_isDigit (h : c.isDigit = true) : c.toLower = c := by
  obtain ⟨-, hhi⟩ := Char.isDigit_iff_toNat.1 h
  have hhi : c.toNat ≤ 57 := hhi
  unfold Char.toLower
  refine dif_neg fun hupper => ?_
  have hlo : 65 ≤ c.toNat := UInt32.le_iff_toNat_le.1 hupper.1
  omega

/-- A written number has no case. -/
theorem lowerAscii_text (d : Decimal) : Text.lowerAscii d.text = d.text := by
  have hlower (c : Char) (hc : c ∈ d.chars) : c.toLower = id c := by
    rcases mem_chars d hc with hc | rfl | rfl
    · exact toLower_of_isDigit hc
    · rfl
    · rfl
  rw [Text.lowerAscii, text, String.toList_ofList, List.map_congr_left hlower, List.map_id]

/-- A written number is not blank. -/
theorem isAllBlank_text (d : Decimal) : Text.isAllBlank d.text = false := by
  obtain ⟨c, cs, hcs, -⟩ := exists_cons_unsignedChars d
  have hmem : c ∈ d.chars := by
    rw [chars_eq, hcs]
    exact List.mem_append_right _ List.mem_cons_self
  rw [Text.isAllBlank, text, String.toList_ofList, List.all_eq_false]
  exact ⟨c, hmem, by simp [(isBlank_of_mem_chars hmem).1]⟩

/-- Numbers are written with digits, a point and a minus only. -/
theorem text_ne_word (d : Decimal) {word : String} (c : Char) (h : c ∈ word.toList)
    (hc : ¬ (c.isDigit = true ∨ c = '.' ∨ c = '-')) : d.text ≠ word := by
  rintro rfl
  rw [text, String.toList_ofList] at h
  exact hc (mem_chars d h)

end Decimal

namespace Value

variable {v : Value}

/-- The text of a number or a boolean has no blanks around it to trim. -/
theorem trim_literal (hv : Family.ofValue v = .number ∨ Family.ofValue v = .boolean) :
    Text.trim v.literal = v.literal := by
  cases v with
  | number d => exact d.normalize.trim_text
  | boolean b => cases b <;> rfl
  | _ => rcases hv with hv | hv <;> cases hv

/-- The text of a number or a boolean is not blank. -/
theorem isAllBlank_literal (hv : Family.ofValue v = .number ∨ Family.ofValue v = .boolean) :
    Text.isAllBlank v.literal = false := by
  cases v with
  | number d => exact d.normalize.isAllBlank_text
  | boolean b => cases b <;> rfl
  | _ => rcases hv with hv | hv <;> cases hv

/-- As generic data the literal of a number or a boolean is a string. -/
theorem ofText_literal (hv : Family.ofValue v = .number ∨ Family.ofValue v = .boolean) :
    ofText v.literal = .string v.literal := by
  cases v with
  | number d =>
    have hplain : looksStructured d.normalize.text.toList = false := by
      cases hchars : d.normalize.text.toList with
      | nil => rfl
      | cons c cs =>
        rw [Decimal.text, String.toList_ofList] at hchars
        have hmem : c ∈ d.normalize.chars := hchars ▸ List.mem_cons_self
        simp only [looksStructured, List.head?_cons, Option.some.injEq, Bool.or_eq_false_iff,
          decide_eq_false_iff_not]
        rcases Decimal.mem_chars _ hmem with hc | rfl | rfl
        · constructor <;> rintro rfl <;> cases hc
        · decide
        · decide
    show ofText d.normalize.text = .string d.normalize.text
    simp only [ofText, d.normalize.trim_text, hplain, Bool.false_eq_true, if_false]
  | boolean b => cases b <;> rfl
  | _ => rcases hv with hv | hv <;> cases hv

end Value

namespace Scalar

variable {s : Scalar} {text : String}

/-- The scalar is a number or a boolean. -/
def IsNumberOrBoolean : Scalar → Prop
  | .number _ => True
  | .boolean => True
  | _ => False

/-- A number or a boolean belongs to the family of its name. -/
theorem IsNumberOrBoolean.family (h : s.IsNumberOrBoolean) :
    s.family = .number ∨ s.family = .boolean := by
  cases s with
  | number => exact .inl rfl
  | boolean => exact .inr rfl
  | _ => exact h.elim

/-- The text is not blank, and the scalar does not read it without the blank characters around
it. -/
structure Unreadable (s : Scalar) (text : String) : Prop where
  notBlank : Text.isAllBlank text = false
  refused : ∀ v, s.parse (Text.trim text) ≠ .ok v

/-- A text that is not blank and fails to be read is unreadable. -/
theorem unreadable_of_read {err : ContractError} (hblank : Text.isAllBlank text = false)
    (h : s.read (Text.trim text) = .error err) : s.Unreadable text := by
  refine ⟨hblank, fun v hv => ?_⟩
  rw [(parse_eq_ok_iff.1 hv).1] at h
  cases h

/-- A scalar whose values are strings reads every text as it is. -/
theorem read_of_string (h : s.family = .string) (text : String) :
    s.read text = .ok (.string text) := by
  cases s with
  | number | boolean | null => cases h
  | _ => rfl

/-- No scalar reads the literal of a number or a boolean of another family, except as a string. -/
theorem exists_read_error {v : Value}
    (hv : Family.ofValue v = .number ∨ Family.ofValue v = .boolean)
    (hs : s.family ≠ Family.ofValue v) (hstring : s.family ≠ .string) :
    ∃ err, s.read v.literal = .error err := by
  cases v with
  | number d =>
    have htext := d.normalize.trim_text
    cases s with
    | number => exact absurd rfl hs
    | boolean =>
      have hword (word : String) (h : 'e' ∈ word.toList) : d.normalize.text ≠ word :=
        d.normalize.text_ne_word 'e' h (by decide)
      refine ⟨.parse d.normalize.text "boolean" "expected true or false", ?_⟩
      simp only [read, Value.literal, Value.display, htext, d.normalize.lowerAscii_text,
        if_neg (hword "true" (by decide)), if_neg (hword "false" (by decide))]
    | null =>
      have hword (word : String) (h : 'u' ∈ word.toList) : d.normalize.text ≠ word :=
        d.normalize.text_ne_word 'u' h (by decide)
      have hne : d.normalize.text ≠ "" := by
        intro he
        have hblank := d.normalize.isAllBlank_text
        rw [he] at hblank
        cases hblank
      refine ⟨.parse d.normalize.text "null" "expected null", ?_⟩
      simp [read, Value.literal, Value.display, htext, hne, hword "null" (by decide),
        hword "(null)" (by decide)]
    | _ => exact absurd rfl hstring
  | boolean b =>
    cases s with
    | boolean => exact absurd rfl hs
    | number | null => cases b <;> exact ⟨_, rfl⟩
    | _ => exact absurd rfl hstring
  | _ => rcases hv with hv | hv <;> cases hv

/-- The text of a number or a boolean is unreadable for scalars of another family, strings apart. -/
theorem unreadable_literal {v : Value}
    (hv : Family.ofValue v = .number ∨ Family.ofValue v = .boolean)
    (hs : s.family ≠ Family.ofValue v) (hstring : s.family ≠ .string) : s.Unreadable v.literal := by
  obtain ⟨err, herr⟩ := exists_read_error hv hs hstring
  exact unreadable_of_read (Value.isAllBlank_literal hv) ((Value.trim_literal hv).symm ▸ herr)

/-- What a number or a boolean generates is not written blank. -/
theorem isAllBlank_literal_generate (h : s.IsNumberOrBoolean) (c : Choices) :
    Text.isAllBlank (s.generate c).literal = false := by
  cases s with
  | number range => exact Value.isAllBlank_literal (.inl rfl)
  | boolean => exact Value.isAllBlank_literal (.inr rfl)
  | _ => exact h.elim

/-- No number and no boolean is written as the word that negates it. -/
theorem unreadable_word (h : s.IsNumberOrBoolean) : s.Unreadable ("not " ++ s.typeName) := by
  cases s with
  | number range =>
    have hword : "not " ++ "number" = "not number" := by decide
    rw [typeName, hword]
    exact unreadable_of_read rfl rfl
  | boolean =>
    have hword : "not " ++ "boolean" = "not boolean" := by decide
    rw [typeName, hword]
    exact unreadable_of_read rfl rfl
  | _ => exact h.elim

end Scalar

end DataContract
