import DataContract.Value.Json
import DataContract.Proofs.DecimalOrder

/-!
# Digits

A row of digits is read as the number that it was written for, with or without zeros in front, and a
decimal in normal form is read as itself.
-/

namespace DataContract

namespace Text

/-- A digit is read as its distance from the character for zero. -/
theorem digit?_of_isDigit {c : Char} (h : c.isDigit = true) : digit? c = some (c.toNat - 48) := by
  obtain ⟨hlo, hhi⟩ := Char.isDigit_iff_toNat.1 h
  have hle : ('0' ≤ c && c ≤ '9') = true := by
    simp only [Bool.and_eq_true, decide_eq_true_eq, Char.le_def, UInt32.le_iff_toNat_le]
    exact ⟨hlo, hhi⟩
  rw [digit?, if_pos hle]

/-- A row of digits is read as the number that it stands for. -/
theorem digits?_of_isDigit {cs : List Char} (hne : cs ≠ []) (h : ∀ c ∈ cs, c.isDigit = true) :
    digits? cs = some (Nat.ofDigitChars 10 cs 0) := by
  have hfold (n : Nat) : cs.foldl (fun n c => do return (← n) * 10 + (← digit? c)) (some n) =
      some (Nat.ofDigitChars 10 cs n) := by
    clear hne
    induction cs generalizing n with
    | nil => simp
    | cons c cs ih =>
      have hc := digit?_of_isDigit (h c List.mem_cons_self)
      simp only [List.foldl_cons, hc, Nat.ofDigitChars_cons]
      rw [← ih fun d hd => h d (List.mem_cons_of_mem _ hd)]
      simp [Nat.mul_comm]
  rw [digits?, if_neg (by simpa using hne), hfold]

/-- Further digits never make the number smaller. -/
theorem le_ofDigitChars (cs : List Char) (n : Nat) : n ≤ Nat.ofDigitChars 10 cs n := by
  rw [Nat.ofDigitChars_eq_ofDigitChars_zero]
  exact Nat.le_add_right_of_le (Nat.le_mul_of_pos_left _ (by positivity))

end Text

namespace Decimal

variable {n width : Nat} {c : Char}

/-- A number is written with digits only. -/
theorem isDigit_of_mem_digitChars (h : c ∈ digitChars n) : c.isDigit = true :=
  Nat.isDigit_of_mem_toDigits (by decide) (by decide) h

/-- The zeros in front are digits as well. -/
theorem isDigit_of_mem_padDigits (h : c ∈ padDigits width n) : c.isDigit = true := by
  rcases List.mem_append.1 h with h | h
  · rw [List.eq_of_mem_replicate h]
    rfl
  · exact isDigit_of_mem_digitChars h

/-- Padded digits have the width that was asked for, if the number fits it. -/
theorem length_padDigits (hw : 0 < width) (h : n < 10 ^ width) :
    (padDigits width n).length = width := by
  have hle := (Nat.length_toDigits_le_iff (b := 10) (by decide) hw).2 h
  simp only [padDigits, digitChars, List.length_append, List.length_replicate]
  omega

/-- Zeros in front do not change the number. -/
theorem ofDigitChars_padDigits (width n : Nat) : Nat.ofDigitChars 10 (padDigits width n) 0 = n := by
  simp [padDigits, digitChars, Nat.ofDigitChars_append]

/-! ## Reading -/

/-- Digits are read one by one, as long as what has been read fits. -/
theorem readDigits_append (point digit : Bool) (scale : Nat) (rest : List Char)
    {coefficient : Nat} {cs : List Char} (hcs : ∀ c ∈ cs, c.isDigit = true) (hne : cs ≠ [])
    (hfit : Nat.ofDigitChars 10 cs coefficient < 2 ^ 96)
    (hscale : point = true → scale + cs.length ≤ 28) :
    readDigits point digit coefficient scale (cs ++ rest) =
      readDigits point true (Nat.ofDigitChars 10 cs coefficient)
        (if point then scale + cs.length else scale) rest := by
  induction cs generalizing coefficient scale digit with
  | nil => exact absurd rfl hne
  | cons c cs ih =>
    have hc := Text.digit?_of_isDigit (hcs c List.mem_cons_self)
    have hroom : (point && decide (scale ≥ 28)) = false := by
      cases point with
      | false => rfl
      | true =>
        have := hscale rfl
        simp only [List.length_cons] at this
        simp only [Bool.true_and, decide_eq_false_iff_not]
        omega
    rw [Nat.ofDigitChars_cons] at hfit ⊢
    have hmul : coefficient * 10 + (c.toNat - 48) = 10 * coefficient + (c.toNat - '0'.toNat) := by
      rw [Nat.mul_comm]
      rfl
    have hstep : 10 * coefficient + (c.toNat - '0'.toNat) < 2 ^ 96 :=
      (Text.le_ofDigitChars cs _).trans_lt hfit
    rw [List.cons_append, readDigits, hroom]
    simp only [Bool.false_eq_true, if_false, hc, hmul, hstep, if_true]
    cases cs with
    | nil => cases point <;> simp
    | cons d cs =>
      rw [ih _ _ (fun x hx => hcs x (List.mem_cons_of_mem _ hx)) (List.cons_ne_nil _ _) hfit]
      · cases point <;> simp [Nat.add_assoc, Nat.add_comm]
      · rintro rfl
        have := hscale rfl
        simp only [List.length_cons, if_true] at this ⊢
        omega

/-- The digits of a decimal are read as its magnitude and its scale. -/
theorem readDigits_chars (d : Decimal) :
    readDigits false false 0 0 (if d.scale = 0 then digitChars d.magnitude
      else digitChars (d.magnitude / 10 ^ d.scale) ++
        '.' :: padDigits d.scale (d.magnitude % 10 ^ d.scale)) = .ok (d.magnitude, d.scale) := by
  have hwhole {n : Nat} (hn : n ≤ d.magnitude) (rest : List Char) :
      readDigits false false 0 0 (digitChars n ++ rest) = readDigits false true n 0 rest := by
    have hvalue : Nat.ofDigitChars 10 (digitChars n) 0 = n := Nat.ofDigitChars_ten_toDigits
    have hfit : Nat.ofDigitChars 10 (digitChars n) 0 < 2 ^ 96 := by
      rw [hvalue]
      exact Nat.lt_of_le_of_lt hn d.magnitude_lt
    rw [readDigits_append false false 0 rest (fun _ => isDigit_of_mem_digitChars)
      Nat.toDigits_ne_nil hfit (fun h => nomatch h), hvalue]
    rfl
  split
  · next hs =>
    have := hwhole (Nat.le_refl _) []
    rw [List.append_nil] at this
    rw [this, hs]
    rfl
  · next hs =>
    have hpos : 0 < d.scale := Nat.pos_of_ne_zero hs
    have hlen := length_padDigits hpos (Nat.mod_lt d.magnitude (Nat.pow_pos (by decide)))
    have hvalue : Nat.ofDigitChars 10 (padDigits d.scale (d.magnitude % 10 ^ d.scale))
        (d.magnitude / 10 ^ d.scale) = d.magnitude := by
      rw [Nat.ofDigitChars_eq_ofDigitChars_zero, hlen, ofDigitChars_padDigits, Nat.div_add_mod]
    have hpoint (rest : List Char) (n : Nat) :
        readDigits false true n 0 ('.' :: rest) = readDigits true true n 0 rest := rfl
    rw [hwhole (Nat.div_le_self _ _), hpoint]
    have := readDigits_append true true 0 []
      (fun _ => isDigit_of_mem_padDigits) (List.ne_nil_of_length_pos (hlen ▸ hpos))
      (hvalue ▸ d.magnitude_lt) (fun _ => by rw [hlen, Nat.zero_add]; exact d.scale_le)
    rw [List.append_nil, hvalue, hlen] at this
    rw [this]
    simp [readDigits]

/-- The digits of a decimal, without its sign. -/
def unsignedChars (d : Decimal) : List Char :=
  if d.scale = 0 then digitChars d.magnitude
  else digitChars (d.magnitude / 10 ^ d.scale) ++
    '.' :: padDigits d.scale (d.magnitude % 10 ^ d.scale)

/-- The sign of a decimal stands before its digits. -/
theorem chars_eq (d : Decimal) :
    d.chars = (if d.negative then ['-'] else []) ++ d.unsignedChars := by
  unfold chars unsignedChars
  dsimp only
  split <;> simp

/-- Behind the sign there are digits and at most a point. -/
theorem isDigit_or_point_of_mem (d : Decimal) (h : c ∈ d.unsignedChars) :
    c.isDigit = true ∨ c = '.' := by
  unfold unsignedChars at h
  split at h
  · exact .inl (isDigit_of_mem_digitChars h)
  · rcases List.mem_append.1 h with h | h
    · exact .inl (isDigit_of_mem_digitChars h)
    · rcases List.mem_cons.1 h with h | h
      · exact .inr h
      · exact .inl (isDigit_of_mem_padDigits h)

/-- The digits of a decimal start with a digit. -/
theorem exists_cons_unsignedChars (d : Decimal) :
    ∃ c cs, d.unsignedChars = c :: cs ∧ c.isDigit = true := by
  have hdigits (n : Nat) : ∃ c cs, digitChars n = c :: cs ∧ c.isDigit = true := by
    obtain ⟨c, cs, hcs⟩ := List.exists_cons_of_ne_nil (Nat.toDigits_ne_nil (n := n) (b := 10))
    refine ⟨c, cs, hcs, isDigit_of_mem_digitChars (n := n) ?_⟩
    rw [digitChars, hcs]
    exact List.mem_cons_self
  unfold unsignedChars
  split
  · exact hdigits _
  · obtain ⟨c, cs, hcs, hc⟩ := hdigits (d.magnitude / 10 ^ d.scale)
    exact ⟨c, _, by rw [hcs, List.cons_append], hc⟩

/-- A decimal that is no negative zero is read from its plain notation. -/
theorem ofUnsigned_unsignedChars {d : Decimal} (h : d.negative = true → d.magnitude ≠ 0) :
    ofUnsigned d.negative d.unsignedChars = .ok d := by
  have hparts : ofParts? (if d.negative then -(d.magnitude : Int) else d.magnitude) d.scale =
      some d := by
    have hlt : decide ((if d.negative then -(d.magnitude : Int) else d.magnitude) < 0) =
        d.negative := by
      cases hn : d.negative with
      | false => simp
      | true => simpa using Nat.pos_of_ne_zero (h hn)
    have habs : (if d.negative then -(d.magnitude : Int) else d.magnitude).natAbs =
        d.magnitude := by
      split <;> simp
    rw [ofParts?, hlt, habs, ofSigned?, dif_pos ⟨d.scale_le, d.magnitude_lt⟩]
  have hread : readDigits false false 0 0 d.unsignedChars = .ok (d.magnitude, d.scale) :=
    readDigits_chars d
  rw [ofUnsigned, hread]
  simp only [bind, Except.bind, hparts]

/-- A decimal is read from its plain notation with its sign, unless it is a negative zero. -/
theorem ofPlain_chars {d : Decimal} (h : d.negative = true → d.magnitude ≠ 0) :
    ofPlain d.chars = .ok d := by
  have hread := ofUnsigned_unsignedChars h
  rw [chars_eq]
  cases hn : d.negative with
  | true =>
    rw [hn] at hread
    exact hread
  | false =>
    rw [hn] at hread
    obtain ⟨c, cs, hcs, hc⟩ := exists_cons_unsignedChars d
    simp only [Bool.false_eq_true, if_false, List.nil_append]
    unfold ofPlain
    split
    · next he =>
      rw [hcs] at he
      cases he
    · next he =>
      rw [hcs] at he
      cases he
      exact absurd hc (by decide)
    · next he =>
      rw [hcs] at he
      cases he
      exact absurd hc (by decide)
    · exact hread

end Decimal

namespace Text

/-- A row of characters of which none is blank is not trimmed. -/
theorem trimChars_of_forall {cs : List Char} (h : ∀ c ∈ cs, isBlank c = false) :
    trimChars cs = cs :=
  trimChars_of_ends (fun c hc => h c (List.mem_of_mem_head? hc))
    fun c hc => h c (List.mem_of_mem_getLast? hc)

/-- No digit is blank. -/
theorem isBlank_of_isDigit {c : Char} (h : c.isDigit = true) : isBlank c = false := by
  obtain ⟨hlo, hhi⟩ := Char.isDigit_iff_toNat.1 h
  have hlo : 48 ≤ c.toNat := hlo
  have hhi : c.toNat ≤ 57 := hhi
  simp only [isBlank, Bool.or_eq_false_iff, Bool.and_eq_false_iff, decide_eq_false_iff_not]
  omega

end Text

namespace Decimal

/-- Dropping zeros at the end of a fraction keeps the number. -/
theorem dropZeros_div (scale n : Nat) :
    ((dropZeros scale n).1 : ℚ) / 10 ^ (dropZeros scale n).2 = n / 10 ^ scale := by
  induction scale generalizing n with
  | zero => rfl
  | succ scale ih =>
    rw [dropZeros]
    split
    · next h =>
      rw [ih]
      obtain ⟨m, rfl⟩ := Nat.dvd_of_mod_eq_zero h
      rw [Nat.mul_div_cancel_left m (by decide), pow_succ]
      push_cast
      field_simp
    · rfl

/-- The normal form stands for the same number. -/
theorem toRat_normalize (d : Decimal) : d.normalize.toRat = d.toRat := by
  rw [toRat_eq, toRat_eq]
  simp only [normalize, dropZeros_div]
  cases d.negative with
  | false => rfl
  | true =>
    simp only [Bool.true_and, bne_iff_ne, ne_eq, if_true]
    split
    · rfl
    · next h =>
      have hzero : d.magnitude = 0 := by simpa using h
      simp [hzero]

/-- The normal form is equal to the decimal. -/
theorem normalize_equal (d : Decimal) : d.normalize.equal d = true :=
  equal_iff.2 (toRat_normalize d)

/-- Dropping zeros leaves nothing only of zero. -/
theorem dropZeros_ne_zero (scale : Nat) {n : Nat} (h : n ≠ 0) : (dropZeros scale n).1 ≠ 0 := by
  induction scale generalizing n with
  | zero => exact h
  | succ scale ih =>
    rw [dropZeros]
    split
    · exact ih (by omega)
    · exact h

/-- The text of a decimal holds neither blank characters nor commas. -/
theorem isBlank_of_mem_chars {d : Decimal} {c : Char} (h : c ∈ d.chars) :
    Text.isBlank c = false ∧ c ≠ ',' := by
  rw [chars_eq] at h
  rcases List.mem_append.1 h with h | h
  · split at h
    · obtain rfl := List.mem_singleton.1 h
      decide
    · cases h
  · rcases isDigit_or_point_of_mem d h with h | rfl
    · exact ⟨Text.isBlank_of_isDigit h, by rintro rfl; cases h⟩
    · decide

/-- In normal form only a number other than zero has a minus sign. -/
theorem magnitude_normalize_ne_zero {d : Decimal} (h : d.normalize.negative = true) :
    d.normalize.magnitude ≠ 0 := by
  simp only [normalize, Bool.and_eq_true, bne_iff_ne, ne_eq] at h ⊢
  exact dropZeros_ne_zero _ h.2

/-- The text of a decimal in normal form is read as this decimal. -/
theorem readDecimal_text (d : Decimal) : readDecimal d.normalize.text = .ok d.normalize := by
  rw [readDecimal, ofText, text, String.toList_ofList,
    Text.trimChars_of_forall fun c hc => (isBlank_of_mem_chars hc).1,
    ofPlain_chars magnitude_normalize_ne_zero]

end Decimal

end DataContract
