import DataContract.Format.Base64
import DataContract.Format.Email
import DataContract.Format.Timestamp
import DataContract.Format.Uuid
import DataContract.Proofs.Digits

/-!
# Written formats are accepted

Every text that is generated in one of the string formats is a text of this format, and has neither
blank characters nor commas, so that it can stand in a list of items.
-/

namespace DataContract

namespace Text

/-- No character is blank or a comma. -/
def Solid (cs : List Char) : Prop :=
  ∀ c ∈ cs, isBlank c = false ∧ c ≠ ','

instance (cs : List Char) : Decidable (Solid cs) :=
  List.decidableBAll (fun c => isBlank c = false ∧ c ≠ ',') cs

section
variable {c : Char} {cs ds : List Char}

@[simp] theorem solid_nil : Solid [] := nofun

@[simp] theorem solid_cons : Solid (c :: cs) ↔ (isBlank c = false ∧ c ≠ ',') ∧ Solid cs :=
  List.forall_mem_cons

@[simp] theorem solid_append : Solid (cs ++ ds) ↔ Solid cs ∧ Solid ds :=
  List.forall_mem_append

/-- The test by which a text of this kind is recognised. -/
theorem solid_of_all (h : cs.all (fun c => !isBlank c && c != ',') = true) : Solid cs := by
  intro c hc
  simpa using List.all_eq_true.1 h c hc

/-- Digits are neither blank characters nor commas. -/
theorem solid_of_isDigit (h : ∀ c ∈ cs, c.isDigit = true) : Solid cs := by
  intro c hc
  refine ⟨isBlank_of_isDigit (h c hc), ?_⟩
  rintro rfl
  exact absurd (h _ hc) (by decide)

@[simp] theorem solid_padDigits (width n : Nat) : Solid (Decimal.padDigits width n) :=
  solid_of_isDigit fun _ => Decimal.isDigit_of_mem_padDigits

end

end Text

namespace Choices

/-- A random text has as many characters as were asked for. -/
@[simp] theorem length_chars (c : Choices) (alphabet : List Char) (n : Nat) :
    (c.chars alphabet n).length = n := by
  simp [chars]

/-- The characters of a random text are in its alphabet. -/
theorem mem_of_mem_chars {c : Choices} {alphabet : List Char} {n : Nat} {d : Char}
    (ha : alphabet ≠ []) (h : d ∈ c.chars alphabet n) : d ∈ alphabet := by
  obtain ⟨i, -, rfl⟩ := List.mem_map.1 h
  have hlt := (c.part i).below_lt (List.length_pos_of_ne_nil ha)
  rw [List.getD_eq_getElem?_getD, List.getElem?_eq_getElem hlt]
  exact List.getElem_mem hlt

/-- A random text is solid if its alphabet is. -/
theorem solid_chars (c : Choices) {alphabet : List Char} (n : Nat) (ha : alphabet ≠ [])
    (h : Text.Solid alphabet) : Text.Solid (c.chars alphabet n) :=
  fun d hd => h d (mem_of_mem_chars ha hd)

/-- There is a letter to choose. -/
theorem letters_ne_nil : letters ≠ [] := by decide

/-- The letters and digits of a random text are neither blank characters nor commas. -/
theorem solid_letters : Text.Solid letters := Text.solid_of_all rfl

end Choices

/-! ## Dates and times -/

namespace CalendarDate

variable {n year month day : Nat} {rest : List Char}

/-- Digits of a fixed width are read back, whatever follows them. -/
theorem fixedDigits?_padDigits (width : Nat) (hw : 0 < width) (h : n < 10 ^ width) :
    fixedDigits? width (Decimal.padDigits width n ++ rest) = some (n, rest) := by
  have hlen := Decimal.length_padDigits hw h
  have hne : Decimal.padDigits width n ≠ [] := List.ne_nil_of_length_pos (hlen.symm ▸ hw)
  have hdigits := Text.digits?_of_isDigit hne fun _ => Decimal.isDigit_of_mem_padDigits
  rw [Decimal.ofDigitChars_padDigits] at hdigits
  rw [fixedDigits?, if_neg (by simp [hlen]), List.take_left' hlen, List.drop_left' hlen, hdigits]
  rfl

/-- A date is read back from its text, whatever follows it. -/
theorem read?_chars {year month day : Nat} (hy : year < 10000) (hm : month < 100)
    (hd : day < 100) : read? (chars year month day ++ rest) = some ((year, month, day), rest) := by
  have hstrip (cs : List Char) : Text.stripStart? ['-'] ('-' :: cs) = some cs := by
    simp [Text.stripStart?]
  simp only [read?, chars, List.append_assoc, List.cons_append,
    fixedDigits?_padDigits 4 (by decide) hy,
    fixedDigits?_padDigits 2 (by decide) hm,
    fixedDigits?_padDigits 2 (by decide) hd, hstrip, Option.bind_eq_bind,
    Option.bind_some, Option.pure_def]

/-- A text that starts with digits has no sign. -/
theorem accepts_chars (hy : year < 10000) (hm : month < 100) (hd : day < 100) :
    accepts (chars year month day) = exists? year month day := by
  have hread : read? (chars year month day) = some ((year, month, day), []) := by
    rw [← List.append_nil (chars year month day)]
    exact read?_chars hy hm hd
  have hhead : ∃ c cs, chars year month day = c :: cs ∧ c.isDigit = true := by
    have hlen : (Decimal.padDigits 4 year).length = 4 := Decimal.length_padDigits (by decide) hy
    obtain ⟨c, cs, hcs⟩ := List.exists_cons_of_length_eq_add_one hlen
    have hc : c.isDigit = true :=
      Decimal.isDigit_of_mem_padDigits (hcs ▸ List.mem_cons_self : c ∈ Decimal.padDigits 4 year)
    exact ⟨c, _, by rw [chars, hcs]; rfl, hc⟩
  obtain ⟨c, cs, hcs, hc⟩ := hhead
  unfold accepts
  dsimp only
  split
  · next he =>
    rw [hcs] at he
    cases he
    exact absurd hc (by decide)
  · next he =>
    rw [hcs] at he
    cases he
    exact absurd hc (by decide)
  · rw [hread]
    simp

/-- A month has at least one day and at most thirty-one. -/
theorem daysInMonth_bounds (year : Int) (month : Nat) :
    1 ≤ daysInMonth year month ∧ daysInMonth year month ≤ 31 := by
  unfold daysInMonth
  split
  · split <;> omega
  · split <;> omega

/-- What a generated date is made of. -/
theorem exists_chars_eq_generate (c : Choices) :
    ∃ year month day, generate c = chars year month day ∧ year < 10000 ∧ month < 100 ∧ day < 100 ∧
      exists? year month day = true := by
  have hy := @Choices.between_bounds (c.part 0) 2000 2099 (by decide)
  have hm := @Choices.between_bounds (c.part 1) 1 12 (by decide)
  have hdays := daysInMonth_bounds ((c.part 0).between 2000 2099) ((c.part 1).between 1 12)
  have hd := (c.part 2).between_bounds hdays.1
  refine ⟨_, _, _, rfl, by omega, by omega, by omega, ?_⟩
  simp only [exists?, Bool.and_eq_true, decide_eq_true_eq]
  exact ⟨⟨hm, hd.1⟩, hd.2⟩

/-- A generated date is one that is accepted, as its day is in its month. -/
theorem accepts_generate (c : Choices) : accepts (generate c) = true := by
  obtain ⟨year, month, day, hg, hy, hm, hd, he⟩ := exists_chars_eq_generate c
  rw [hg, accepts_chars hy hm hd, he]

@[simp] theorem solid_generate (c : Choices) : Text.Solid (generate c) := by
  obtain ⟨year, month, day, hg, -⟩ := exists_chars_eq_generate c
  simp [hg, chars, Text.isBlank]

end CalendarDate

namespace Timestamp

/-- A generated timestamp is one that is accepted, as its date and its hours, minutes and seconds
are. -/
theorem accepts_generate (c : Choices) : accepts (generate c) = true := by
  obtain ⟨year, month, day, hg, hy, hm, hd, he⟩ := CalendarDate.exists_chars_eq_generate (c.part 0)
  have hhour := @Choices.between_bounds (c.part 1) 0 23 (by decide)
  have hminute := @Choices.between_bounds (c.part 2) 0 59 (by decide)
  have hsecond := @Choices.between_bounds (c.part 3) 0 59 (by decide)
  have htwo {n : Nat} (hn : n ≤ 59) (rest : List Char) :
      CalendarDate.fixedDigits? 2 (Decimal.padDigits 2 n ++ rest) = some (n, rest) :=
    CalendarDate.fixedDigits?_padDigits 2 (by decide) (by omega)
  have hcolon (cs : List Char) : Text.stripStart? [':'] (':' :: cs) = some cs := by
    simp [Text.stripStart?]
  have hend : skipFraction? ['Z'] = some ['Z'] ∧ offset? ['Z'] = some 0 := by decide
  unfold accepts generate
  simp only [hg, List.append_assoc, List.cons_append,
    CalendarDate.read?_chars hy hm hd, htwo (Nat.le_trans hhour.2 (by decide)), htwo hminute.2,
    htwo hsecond.2, hcolon, hend, Option.bind_eq_bind, Option.bind_some, Option.pure_def,
    List.head?_cons, Option.map_some, List.drop_succ_cons, List.drop_zero, Option.getD_some, he]
  have hne : (c.part 3).between 0 59 ≠ 60 := by omega
  simp [hne]
  omega

@[simp] theorem solid_generate (c : Choices) : Text.Solid (generate c) := by
  simp [generate, Text.isBlank]

end Timestamp

/-! ## Identifiers, mail addresses and bytes -/

namespace Text

variable {sep : Char} {cs rest : List Char}

/-- A text without the separator is one piece. -/
theorem splitAll_of_not_mem (h : sep ∉ cs) : splitAll sep cs = [cs] := by
  induction cs with
  | nil => rfl
  | cons c cs ih =>
    have hc : c ≠ sep := by
      rintro rfl
      exact h List.mem_cons_self
    rw [splitAll, if_neg hc, ih fun hm => h (List.mem_cons_of_mem _ hm)]

/-- A row without the separator is the first part. -/
theorem splitAll_append (h : sep ∉ cs) (rest : List Char) :
    splitAll sep (cs ++ sep :: rest) = cs :: splitAll sep rest := by
  induction cs with
  | nil => simp [splitAll]
  | cons c cs ih =>
    have hc : c ≠ sep := by
      rintro rfl
      exact h List.mem_cons_self
    rw [List.cons_append, splitAll, if_neg hc, ih fun hm => h (List.mem_cons_of_mem _ hm)]

/-- The parts of rows that are joined by the separator are the rows. -/
theorem splitAll_intercalate {rows : List (List Char)} (hne : rows ≠ [])
    (h : ∀ row ∈ rows, sep ∉ row) : splitAll sep ([sep].intercalate rows) = rows := by
  induction rows with
  | nil => exact absurd rfl hne
  | cons row rows ih =>
    have hrow := h row List.mem_cons_self
    cases rows with
    | nil => rw [List.intercalate_singleton, splitAll_of_not_mem hrow]
    | cons next rows =>
      have hrows := ih (List.cons_ne_nil _ _) fun row hm => h row (List.mem_cons_of_mem _ hm)
      rw [List.intercalate_cons_cons, List.append_assoc, List.singleton_append,
        splitAll_append hrow, hrows]

end Text

namespace Uuid

/-- A random text in hexadecimal digits has no hyphen. -/
theorem isHex_of_mem_chars {c : Choices} {alphabet : List Char} {n : Nat} (ha : alphabet ≠ [])
    (h : alphabet.all (fun d => isHex d && d != '-') = true) {d : Char}
    (hd : d ∈ c.chars alphabet n) : isHex d = true ∧ d ≠ '-' := by
  simpa using List.all_eq_true.1 h d (Choices.mem_of_mem_chars ha hd)

/-- A generated identifier has five groups of hexadecimal digits of the right lengths. -/
theorem accepts_generate (c : Choices) : accepts (generate c) = true := by
  have hhex (i n : Nat) : ∀ d ∈ (c.part i).chars digits n, isHex d = true ∧ d ≠ '-' :=
    fun d => isHex_of_mem_chars (by decide) rfl
  have hvariant : ∀ d ∈ (c.part 3).chars ['8', '9', 'a', 'b'] 1, isHex d = true ∧ d ≠ '-' :=
    fun d => isHex_of_mem_chars (by decide) rfl
  have hthird : ∀ d ∈ '4' :: (c.part 2).chars digits 3, isHex d = true ∧ d ≠ '-' :=
    List.forall_mem_cons.2 ⟨by decide, hhex 2 3⟩
  have hfourth : ∀ d ∈ (c.part 3).chars ['8', '9', 'a', 'b'] 1 ++ (c.part 4).chars digits 3,
      isHex d = true ∧ d ≠ '-' := List.forall_mem_append.2 ⟨hvariant, hhex 4 3⟩
  have hnot {cs : List Char} (h : ∀ d ∈ cs, isHex d = true ∧ d ≠ '-') : '-' ∉ cs :=
    fun hm => (h _ hm).2 rfl
  have hall {cs : List Char} (h : ∀ d ∈ cs, isHex d = true ∧ d ≠ '-') : cs.all isHex = true :=
    List.all_eq_true.2 fun d hd => (h d hd).1
  have hsplit : Text.splitAll '-' (generate c) = [(c.part 0).chars digits 8,
      (c.part 1).chars digits 4, '4' :: (c.part 2).chars digits 3,
      (c.part 3).chars ['8', '9', 'a', 'b'] 1 ++ (c.part 4).chars digits 3,
      (c.part 5).chars digits 12] := by
    have hchars : generate c = (c.part 0).chars digits 8 ++ '-' :: ((c.part 1).chars digits 4 ++
        '-' :: (('4' :: (c.part 2).chars digits 3) ++ '-' ::
          (((c.part 3).chars ['8', '9', 'a', 'b'] 1 ++ (c.part 4).chars digits 3) ++
            '-' :: (c.part 5).chars digits 12))) := by
      simp [generate]
    rw [hchars, Text.splitAll_append (hnot (hhex 0 8)), Text.splitAll_append (hnot (hhex 1 4)),
      Text.splitAll_append (hnot hthird), Text.splitAll_append (hnot hfourth),
      Text.splitAll_of_not_mem (hnot (hhex 5 12))]
  have hhyphenated : isHyphenated (generate c) = true := by
    simp only [isHyphenated, hsplit, List.map_cons, List.map_nil, List.length_cons,
      List.length_append, Choices.length_chars, List.all_cons, List.all_nil, hall (hhex 0 8),
      hall (hhex 1 4), hall hfourth, hall (hhex 5 12), Bool.and_true]
    rw [← List.all_cons, hall hthird]
    rfl
  rw [accepts, hhyphenated]
  rfl

@[simp] theorem solid_generate (c : Choices) : Text.Solid (generate c) := by
  have hdigits : Text.Solid digits := Text.solid_of_all rfl
  have hvariant : Text.Solid ['8', '9', 'a', 'b'] := by decide
  have hhex (i n : Nat) : Text.Solid ((c.part i).chars digits n) :=
    (c.part i).solid_chars n (by decide) hdigits
  have hone : Text.Solid ((c.part 3).chars ['8', '9', 'a', 'b'] 1) :=
    (c.part 3).solid_chars 1 (by decide) hvariant
  simp [generate, hhex, hone, Text.isBlank]

end Uuid

namespace Email

/-- The characters of a generated name are letters and digits. -/
theorem name_char {c : Choices} {d : Char} (h : d ∈ (c.chars Choices.letters 8).map Char.toLower) :
    d ≠ '@' ∧ Text.isBlank d = false ∧ d ≠ ',' := by
  obtain ⟨x, hx, rfl⟩ := List.mem_map.1 h
  have hall : Choices.letters.all (fun x =>
      x.toLower != '@' && !Text.isBlank x.toLower && x.toLower != ',') = true := rfl
  simpa [and_assoc] using
    List.all_eq_true.1 hall x (Choices.mem_of_mem_chars Choices.letters_ne_nil hx)

@[simp] theorem solid_generate (c : Choices) : Text.Solid (generate c) :=
  Text.solid_append.2 ⟨fun _ hd => (name_char hd).2, Text.solid_of_all rfl⟩

/-- A generated address has a name without blank characters and a domain. -/
theorem accepts_generate (c : Choices) : accepts (generate c) = true := by
  have hsplit : Text.splitOnce (· = '@') (generate c) =
      some ((c.chars Choices.letters 8).map Char.toLower, "example.com".toList) :=
    Text.splitOnce_append (fun d hd => by simpa using (name_char hd).1) (by decide) _
  have hblank : (generate c).any Text.isBlank = false :=
    List.any_eq_false.2 fun d hd => by simp [solid_generate c d hd]
  have hname : ((c.chars Choices.letters 8).map Char.toLower).isEmpty = false := by
    rw [List.isEmpty_eq_false_iff]
    exact List.ne_nil_of_length_pos (by simp)
  have hdomain :
      (!("example.com".toList.contains '@') && isDomain "example.com".toList) = true := by decide
  rw [Bool.and_eq_true] at hdomain
  rw [accepts, hsplit]
  simp only [hname, hdomain, hblank]
  rfl

end Email

namespace Base64

/-- There is a character to choose. -/
theorem alphabet_ne_nil : alphabet ≠ [] := by decide

/-- Groups of four characters of the alphabet encode bytes. -/
theorem accepts_of_forall (n : Nat) {cs : List Char} (hlen : cs.length = 4 * n)
    (h : ∀ c ∈ cs, c ∈ alphabet) : accepts cs = true := by
  have hall : alphabet.all (fun c => endsIn 0 c && c != '=') = true := rfl
  have hends (c : Char) (hc : c ∈ alphabet) : endsIn 0 c = true ∧ c ≠ '=' := by
    simpa using List.all_eq_true.1 hall c hc
  induction n generalizing cs with
  | zero =>
    rw [List.length_eq_zero_iff.1 hlen]
    rfl
  | succ n ih =>
    obtain ⟨a, b, c, d, rest, rfl⟩ : ∃ a b c d rest, cs = a :: b :: c :: d :: rest := by
      match cs, hlen with
      | a :: b :: c :: d :: rest, _ => exact ⟨a, b, c, d, rest, rfl⟩
    simp only [List.mem_cons, forall_eq_or_imp] at h
    obtain ⟨ha, hb, hc, hd, hrest⟩ := h
    have hmore : accepts rest = true := ih (by simp only [List.length_cons] at hlen; omega) hrest
    have hpad : d ≠ '=' := (hends d hd).2
    unfold accepts
    split
    · rfl
    · next he =>
      cases he
      exact absurd rfl hpad
    · next he =>
      cases he
      exact absurd rfl hpad
    · next he =>
      cases he
      simp only [hends _ ha, hends _ hb, hends _ hc, hends _ hd, hmore, Bool.and_self]
    · next hne => exact (hne a b c d rest rfl).elim

/-- Generated text in base 64 is three groups of four characters, which encode bytes. -/
theorem accepts_generate (c : Choices) : accepts (generate c) = true :=
  accepts_of_forall 3 (by simp [generate]) fun _ => Choices.mem_of_mem_chars alphabet_ne_nil

@[simp] theorem solid_generate (c : Choices) : Text.Solid (generate c) :=
  c.solid_chars 12 alphabet_ne_nil (Text.solid_of_all rfl)

end Base64

end DataContract
