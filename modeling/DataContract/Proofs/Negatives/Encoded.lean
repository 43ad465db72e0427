import DataContract.Proofs.Negatives.Unions
import DataContract.Proofs.Reading.Literals
import DataContract.Proofs.Texts

/-!
# Negatives of string-encoded patterns

A string-encoded pattern accepts the strings that the pattern inside it reads. Its negatives are the
scalars of other families than that of strings, and negatives of the pattern inside that are numbers
or booleans, encoded again. A flat pattern takes the literal of such a number or boolean of another
family for what it is, a string (`Pattern.reads_literal_iff`). So the string-encoded pattern rejects
what its negatives generate unless it is a string that the pattern inside accepts, which happens for
patterns of strings only (`Pattern.fails_check_encoded_negative`): each number is also a string
(`Pattern.encodedString_accepts_negative`).
-/

namespace DataContract

namespace Engine

variable {v w : Value}

/-- An exact value takes the literal of a number or a boolean of another family for a string. -/
theorem parseExact_foreign (hv : Family.ofValue v = .number ∨ Family.ofValue v = .boolean)
    (hw : Family.ofValue w ≠ Family.ofValue v) :
    (w.equal (.string v.literal) = true ∧
        parseExact w v.literal = .ok (.string v.literal)) ∨
      (w.equal (.string v.literal) = false ∧ ∃ err, parseExact w v.literal = .error err) := by
  have hstring (hread : readLike w v.literal = .ok (.string v.literal)) :
      (w.equal (.string v.literal) = true ∧
          parseExact w v.literal = .ok (.string v.literal)) ∨
        (w.equal (.string v.literal) = false ∧ ∃ err, parseExact w v.literal = .error err) := by
    cases heq : w.equal (.string v.literal) with
    | true => exact .inl ⟨rfl, parseExact_of_equal hread heq⟩
    | false => exact .inr ⟨rfl, exists_parseExact_error hread heq⟩
  cases w with
  | number d =>
    obtain ⟨err, hread⟩ :=
      Scalar.exists_read_error (s := .number .any) hv hw nofun
    refine .inr ⟨rfl, err, ?_⟩
    have hread : readLike (.number d) v.literal = .error err := hread
    rw [parseExact, hread]
  | string text => exact hstring rfl
  | _ => exact hstring (congrArg Except.ok (Value.ofText_literal hv))

end Engine

namespace Pattern

variable {p q : Pattern} {v w : Value} {r : Resolver} {row : Row} {shape : Enumeration}

/-! ## What flat patterns read -/

/-- A text is not both read and refused by one pattern. -/
theorem not_reads_of_refuses {text : String} (h : p.Refuses text r) : ¬ p.Reads text r :=
  fun hreads => hreads.not_refuses (.refl r) h

/-- A scalar reads the literal of a number or a boolean of another family if it accepts it as a
string. -/
theorem reads_scalar_literal_iff {s : Scalar} (hr : r.config.mockMode = false)
    (hv : Family.ofValue v = .number ∨ Family.ofValue v = .boolean)
    (hs : s.family ≠ Family.ofValue v) :
    (scalar s).Reads v.literal r ↔ (scalar s).Accepts (.string v.literal) r := by
  rw [accepts_scalar_iff hr]
  constructor
  · intro hreads
    obtain ⟨u, hu⟩ := reads_scalar hreads
    obtain ⟨hread, hcheck⟩ := Scalar.parse_eq_ok_iff.1 hu
    by_cases hstring : s.family = .string
    · rw [Scalar.read_of_string hstring] at hread
      cases hread
      exact hcheck
    · obtain ⟨err, herr⟩ := Scalar.exists_read_error hv hs hstring
      cases herr.symm.trans hread
  · intro hcheck
    have hstring : s.family = .string := (Scalar.family_of_check hcheck).symm
    refine ⟨1, .string v.literal, Outcome.ofExcept_eq_ok.2 ?_⟩
    exact Scalar.parse_eq_ok_iff.2 ⟨Scalar.read_of_string hstring _, hcheck⟩

/-- An exact value reads such a literal if it is this string. -/
theorem reads_exact_literal_iff (hr : r.config.mockMode = false)
    (hv : Family.ofValue v = .number ∨ Family.ofValue v = .boolean)
    (hw : Family.ofValue w ≠ Family.ofValue v) :
    (exact w).Reads v.literal r ↔ (exact w).Accepts (.string v.literal) r := by
  rw [accepts_exact_iff hr]
  rcases Engine.parseExact_foreign hv hw with ⟨heq, hparse⟩ | ⟨heq, err, herr⟩
  · exact iff_of_true ⟨1, _, hparse⟩ heq
  · exact iff_of_false (not_reads_of_refuses ⟨1, err, herr⟩) (by simp [heq])

/-- An enumeration reads such a literal if it has this string. -/
theorem reads_enumeration_literal_iff (hr : r.config.mockMode = false) (hc : shape.Checked)
    (hv : Family.ofValue v = .number ∨ Family.ofValue v = .boolean)
    (hs : shape.family ≠ Family.ofValue v) :
    (enumeration shape).Reads v.literal r ↔ (enumeration shape).Accepts (.string v.literal) r := by
  have hforeign (w : Value) (hw : w ∈ shape.literals) :=
    Engine.parseExact_foreign hv (fun hf => hs ((hc.uniform.2 w hw).symm.trans hf))
  by_cases hliteral : ∃ w ∈ shape.literals, w.equal (.string v.literal) = true
  · obtain ⟨w, hw, heq⟩ := hliteral
    refine iff_of_true ⟨2, .string v.literal, ?_⟩ ?_
    · have hread : Engine.parseExact w v.literal = .ok (.string v.literal) := by
        rcases hforeign w hw with ⟨-, h⟩ | ⟨hne, -⟩
        · exact h
        · cases heq.symm.trans hne
      exact parse_enumeration_of_literal hw hread fun w hw =>
        (hforeign w hw).imp And.right And.right
    · have hmem : exact w ∈ shape.members := List.mem_append_left _ (List.mem_map_of_mem hw)
      have hflat : (enumeration shape).IsFlat := hc
      exact (hflat.bounded.accepts_iff_fits hr).2 (.inl ⟨_, hmem, (accepts_exact_iff hr).2 heq⟩)
  · refine iff_of_false ?_ fun ha => ?_
    · have hnull : ∃ err, Scalar.parse .null v.literal = .error err := by
        obtain ⟨err, herr⟩ := Scalar.exists_read_error (s := .null) hv
          (by rcases hv with hv | hv <;> rw [hv] <;> exact nofun) nofun
        exact ⟨err, by rw [Scalar.parse, herr]⟩
      obtain ⟨err, herr⟩ := exists_parse_enumeration_error (n := 0) (r := r) hnull fun w hw =>
        ((hforeign w hw).resolve_left fun h => hliteral ⟨w, hw, h.1⟩).2
      exact not_reads_of_refuses ⟨2, err, herr⟩
    · rcases exists_literal_of_accepts hr hc ha with hexists | ⟨-, hnull⟩
      · exact hliteral hexists
      · cases hnull

/-- A flat pattern reads the literal of a number or a boolean of another family exactly if it
accepts this text as a string. -/
theorem reads_literal_iff (hr : r.config.mockMode = false) (hp : p.IsFlat)
    (hv : Family.ofValue v = .number ∨ Family.ofValue v = .boolean)
    (hf : Family.ofDeclared r 1 p ≠ some (Family.ofValue v)) :
    p.Reads v.literal r ↔ p.Accepts (.string v.literal) r := by
  have hf {f : Family} (h : Family.ofDeclared r 1 p = some f) : f ≠ Family.ofValue v :=
    fun he => hf (h.trans (congrArg some he))
  cases p with
  | scalar s => exact reads_scalar_literal_iff hr hv (hf rfl)
  | exact w => exact reads_exact_literal_iff hr hv (hf rfl)
  | enumeration shape => exact reads_enumeration_literal_iff hr hp hv (hf rfl)
  | _ => exact hp.elim

/-! ## Negatives -/

/-- A negative of an encoded flat pattern generates a value that is no string, or the literal of a
number or a boolean of another family. -/
theorem exists_of_encoded_negative (hp : p.IsFlat) (hq : (inString p).HasNegative row r q)
    (hv : q.Generates v r) : Family.ofValue v ≠ .string ∨
      ∃ w, (Family.ofValue w = .number ∨ Family.ofValue w = .boolean) ∧
        Family.ofDeclared r 1 p ≠ some (Family.ofValue w) ∧ v = .string w.literal := by
  obtain ⟨n, hq⟩ := hq
  cases n with
  | zero => cases hq
  | succ n =>
    have hq : q ∈ (Negatives.step (Engine.ofBudget n) (Negatives.ofBudget n) (inString p)
      row r).toList := hq
    rcases Negatives.cases_of_mem_inString hq with hq | ⟨negative, hmem, hkept, rfl⟩
    · obtain ⟨s, rfl, hs⟩ := Negatives.exists_of_mem_ofFamily hq
      obtain ⟨c, rfl⟩ := exists_of_generates_scalar hv
      exact .inl (by rwa [Negatives.family_generate])
    · obtain ⟨s, rfl, hs⟩ := exists_scalar_of_flat_negative hp hmem
      obtain ⟨w, hw, rfl⟩ := exists_of_generates_inString hv
      obtain ⟨c, rfl⟩ := exists_of_generates_scalar hw
      refine .inr ⟨s.generate c, ?_, by rwa [Negatives.family_generate], rfl⟩
      rw [Negatives.family_generate]
      cases s with
      | number => exact .inl rfl
      | boolean => exact .inr rfl
      | _ => cases hkept

/-- What a negative of an encoded flat pattern generates is accepted exactly if it is a string that
the pattern inside accepts. -/
theorem accepts_encoded_negative_iff (hr : r.config.mockMode = false) (hp : p.IsFlat)
    (hq : (inString p).HasNegative row r q) (hv : q.Generates v r) :
    (inString p).Accepts v r ↔ Family.ofValue v = .string ∧ p.Accepts v r := by
  rw [hp.bounded.inString.accepts_iff_fits hr]
  constructor
  · rintro ⟨text, rfl, hreads⟩
    rcases exists_of_encoded_negative hp hq hv with hne | ⟨w, hw, hf, htext⟩
    · exact absurd rfl hne
    · cases htext
      exact ⟨rfl, (reads_literal_iff hr hp hw hf).1 hreads⟩
  · rintro ⟨hstring, ha⟩
    rcases exists_of_encoded_negative hp hq hv with hne | ⟨w, hw, hf, rfl⟩
    · exact absurd hstring hne
    · exact ⟨w.literal, rfl, (reads_literal_iff hr hp hw hf).2 ha⟩

/-- A string-encoded flat pattern rejects what its negatives generate unless that is a string which
the pattern inside accepts, and in any case if that is no pattern of strings. -/
theorem fails_check_encoded_negative (hr : r.config.mockMode = false) (hp : p.IsFlat)
    (hq : (inString p).HasNegative row r q) (hv : q.Generates v r) :
    (Fails ((inString p).check v r) ↔ ¬ (Family.ofValue v = .string ∧ p.Accepts v r)) ∧
      (Family.ofDeclared r 1 p ≠ some .string → Fails ((inString p).check v r)) := by
  have hfails : Fails ((inString p).check v r) ↔
      ¬ (Family.ofValue v = .string ∧ p.Accepts v r) := by
    rw [hp.bounded.inString.fails_check_iff hr (by decide),
      accepts_encoded_negative_iff hr hp hq hv]
  refine ⟨hfails, fun hfamily => hfails.2 ?_⟩
  rintro ⟨hstring, ha⟩
  rcases family_of_flat hr hp ha with hflat | ⟨rfl, -⟩
  · exact hfamily (hflat.trans (congrArg some hstring))
  · cases hstring

/-- Numbers in strings reject the booleans in strings that are their negatives. -/
theorem encodedNumber_fails :
    (inString number).HasNegative .empty .empty (inString boolean) ∧
      (inString boolean).Generates (.string "false") .empty ∧
      Fails ((inString number).check (.string "false") .empty) := by
  have hq : (inString number).HasNegative .empty .empty (inString boolean) :=
    ⟨2, List.mem_of_getElem? (i := 3) rfl⟩
  have hv : (inString boolean).Generates (.string "false") .empty := ⟨2, default, rfl⟩
  have hflat : number.IsFlat := trivial
  exact ⟨hq, hv, (fails_check_encoded_negative rfl hflat hq hv).2 nofun⟩

/-- Strings in strings accept the numbers in strings that are among their negatives. -/
theorem encodedString_accepts_negative :
    (inString string).HasNegative .empty .empty (inString number) ∧
      (inString number).Generates (.string "1") .empty ∧
      (inString string).check (.string "1") .empty = some .success :=
  ⟨⟨2, List.mem_of_getElem? (i := 3) rfl⟩, ⟨2, default, rfl⟩, rfl⟩

end Pattern

end DataContract
