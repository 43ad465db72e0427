import DataContract.Proofs.Negatives.Containment

/-!
# Negatives of unions of scalars

The negatives of a union of scalars, exact values and enumerations are the scalars of other families
than that of some member, without those that a member contains. A value that is generated from one
of them is of its family, so the members of other families reject it. No member contains all of the
family, but a member of the family accepts the value if that is within its bounds, in its format, or
equal to its value or to one of its literals; then the union accepts a value of its own negative,
and otherwise it does not (`Pattern.fails_check_union_negative`). Since the whole numbers do not
contain all numbers, these are a negative of the union of booleans and whole numbers, and one of
them may be whole (`Pattern.integer_accepts_negative`).
-/

namespace DataContract

namespace Pattern

/-- A scalar, an exact value or a checked enumeration. -/
def IsFlat : Pattern → Prop
  | .scalar _ => True
  | .exact _ => True
  | .enumeration shape => shape.Checked
  | _ => False

variable {r : Resolver} {m p q : Pattern} {members : List Pattern} {row : Row} {v : Value}

/-- What a nullable enumeration contains includes null. -/
theorem contains_null_of_nullable {shape : Enumeration} (h : shape.nullable = true) :
    (enumeration shape).Contains null r r := by
  have hmember (p : Pattern) (hp : p ∈ shape.members) :
      ∃ result, (Engine.ofBudget 1).encompasses p null r r [] = some result := by
    rcases List.mem_append.1 hp with hp | hp
    · obtain ⟨v, -, rfl⟩ := List.mem_map.1 hp
      exact ⟨_, rfl⟩
    · rw [if_pos h, List.mem_singleton] at hp
      subst hp
      exact ⟨.success, rfl⟩
  obtain ⟨attempts, hattempts⟩ := exists_traverse? hmember
  have hany : attempts.any MatchResult.isSuccess = true := by
    have hnull : null ∈ shape.members := by simp [Enumeration.members, h]
    obtain ⟨result, hresult, hcontains⟩ := exists_of_traverse? hattempts hnull
    cases hcontains
    exact List.any_eq_true.2 ⟨_, hresult, rfl⟩
  refine ⟨2, ?_⟩
  show Succeeds ((Engine.ofBudget 1).encompassesUnion shape.members _ null r r [])
  refine succeeds_bind.2 ⟨[MatchResult.success], traverse?_eq_some_iff.2 ?_, rfl⟩
  show [traverse? _ _ >>= _] = [some MatchResult.success]
  rw [hattempts, Option.bind_eq_bind, Option.bind_some, if_pos hany]
  rfl

/-- The negatives of a flat pattern are scalars of other families. -/
theorem exists_scalar_of_flat_negative {n : Nat} (hp : p.IsFlat)
    (hq : q ∈ (Negatives.ofBudget n p row r).toList) :
    ∃ s, q = .scalar s ∧ Family.ofDeclared r 1 p ≠ some s.family := by
  cases n with
  | zero => cases hq
  | succ n =>
    have hfamily {f : Family} (hq : q ∈ (LazyList.ofList (Negatives.ofFamily f)).toList) :
        ∃ s, q = .scalar s ∧ some f ≠ some s.family := by
      rw [LazyList.toList_ofList] at hq
      obtain ⟨s, rfl, hs⟩ := Negatives.exists_of_mem_ofFamily hq
      exact ⟨s, rfl, fun h => hs (Option.some.inj h).symm⟩
    cases p with
    | scalar s => exact hfamily hq
    | exact w => exact hfamily hq
    | enumeration shape =>
      have hq : q ∈ (LazyList.ofList ((Negatives.ofFamily shape.family).filter _)).toList := hq
      rw [LazyList.toList_ofList] at hq
      refine hfamily (f := shape.family) ?_
      rw [LazyList.toList_ofList]
      exact List.mem_of_mem_filter hq
    | _ => exact hp.elim

/-- A flat pattern accepts values of its family, or null if it contains null. -/
theorem family_of_flat (hl : r.config.mockMode = false) (hm : m.IsFlat) (ha : m.Accepts v r) :
    Family.ofDeclared r 1 m = some (Family.ofValue v) ∨ (v = .null ∧ m.Contains null r r) := by
  cases m with
  | scalar s => exact .inl (congrArg some (Scalar.family_of_check (ha.fits hl)).symm)
  | exact w =>
    have heq : w.equal v = true := ha.fits hl
    exact .inl (congrArg some (Family.ofValue_congr heq))
  | enumeration shape =>
    rcases family_of_enumeration hl hm ha with hfamily | ⟨hnullable, rfl⟩
    · exact .inl (congrArg some hfamily.symm)
    · exact .inr ⟨rfl, contains_null_of_nullable hnullable⟩
  | _ => exact hm.elim

/-- The value suits a flat pattern of its family: it is within the bounds, in the format, or equal
to the exact value or a literal. -/
def Suits : Pattern → Value → Prop
  | .scalar (.number range), .number d =>
    (range.integer = true → ∃ n : ℤ, d.toRat = n) ∧
      (∀ lo ∈ range.minimum, lo.toRat ≤ d.toRat) ∧ ∀ hi ∈ range.maximum, d.toRat ≤ hi.toRat
  | .scalar (.string range), .string text =>
    (∀ lo ∈ range.minLength, lo ≤ text.length) ∧ ∀ hi ∈ range.maxLength, text.length ≤ hi
  | .scalar .emptyString, .string text => text = ""
  | .scalar s, .string text => ∀ accepts ∈ s.format?, accepts text.toList = true
  | .scalar _, _ => True
  | .exact w, v => w.equal v = true
  | .enumeration shape, v => ∃ w ∈ shape.literals, w.equal v = true
  | _, _ => False

/-- A scalar accepts the values of its family that suit it. -/
theorem scalar_check_iff {s : Scalar} (hfamily : s.family = Family.ofValue v) :
    s.check v = .success ↔ (scalar s).Suits v := by
  have hif (b : Bool) (expected actual : String) :
      (if b = true then MatchResult.success else .mismatch expected actual) = .success ↔
        b = true := by
    cases b <;> simp [MatchResult.mismatch, MatchResult.fail]
  cases v with
  | null =>
    cases s with
    | null => exact iff_of_true rfl trivial
    | _ => cases hfamily
  | boolean =>
    cases s with
    | boolean => exact iff_of_true rfl trivial
    | _ => cases hfamily
  | number d =>
    cases s with
    | number range =>
      rw [Scalar.check, NumberRange.check_iff, Decimal.isWhole_iff]
      rfl
    | _ => cases hfamily
  | string text =>
    cases s with
    | number | boolean | null => cases hfamily
    | string range => exact LengthRange.check_iff
    | binary => exact iff_of_true rfl fun _ hf => by cases hf
    | emptyString => exact (hif _ _ _).trans String.isEmpty_iff
    | date | dateTime | uuid | email | base64 =>
      exact (hif _ _ _).trans ⟨fun h _ hf => Option.some.inj hf ▸ h, fun h => h _ rfl⟩
  | object | array | xml => cases s <;> cases hfamily

/-- A match with a flat pattern goes no deeper than its literals. -/
theorem IsFlat.bounded (hp : p.IsFlat) : p.Bounded r 2 := by
  cases p with
  | scalar s => exact bounded_scalar s
  | exact w => exact bounded_exact w
  | enumeration shape =>
    refine .of_inner nofun nofun fun q hq => ?_
    rcases List.mem_append.1 hq with hq | hq
    · obtain ⟨w, -, rfl⟩ := List.mem_map.1 hq
      exact bounded_exact w
    · split at hq
      · rw [List.mem_singleton.1 hq]
        exact bounded_scalar .null
      · cases hq
  | _ => exact hp.elim

/-- A flat pattern that does not contain null accepts the values of its family that suit it. -/
theorem accepts_flat_iff (hl : r.config.mockMode = false) (hm : m.IsFlat)
    (hnull : v = .null → ¬ m.Contains null r r) :
    m.Accepts v r ↔ Family.ofDeclared r 1 m = some (Family.ofValue v) ∧ m.Suits v := by
  have hfamily (ha : m.Accepts v r) : Family.ofDeclared r 1 m = some (Family.ofValue v) :=
    (family_of_flat hl hm ha).resolve_right fun h => hnull h.1 h.2
  cases m with
  | scalar s =>
    rw [accepts_scalar_iff hl] at hfamily ⊢
    refine ⟨fun h => ⟨hfamily h, ?_⟩, fun h => ?_⟩
    · exact (scalar_check_iff (Option.some.inj (hfamily h))).1 h
    · exact (scalar_check_iff (Option.some.inj h.1)).2 h.2
  | exact w =>
    rw [accepts_exact_iff hl] at hfamily ⊢
    exact ⟨fun h => ⟨hfamily h, h⟩, And.right⟩
  | enumeration shape =>
    refine ⟨fun ha => ⟨hfamily ha, ?_⟩, ?_⟩
    · refine (exists_literal_of_accepts hl hm ha).resolve_right ?_
      rintro ⟨hnullable, rfl⟩
      exact hnull rfl (contains_null_of_nullable hnullable)
    · rintro ⟨-, w, hw, hequal⟩
      refine (hm.bounded.accepts_iff_fits hl).2
        (.inl ⟨exact w, ?_, (accepts_exact_iff hl).2 hequal⟩)
      exact List.mem_append_left _ (List.mem_map_of_mem hw)
  | _ => exact hm.elim

/-- A value of a negative of a union is accepted by the members that are of the family of the
negative and that it suits, and the union rejects it if there are none. -/
theorem fails_check_union_negative {title text : Option String} (hl : r.config.mockMode = false)
    (hflat : ∀ m ∈ members, m.IsFlat) (hq : (union members title text).HasNegative row r q)
    (hv : q.Generates v r) :
    (∀ m ∈ members, m.Accepts v r ↔
      Family.ofDeclared r 1 m = some (Family.ofNegative q) ∧ m.Suits v) ∧
    (Fails ((union members title text).check v r) ↔ ∀ m ∈ members,
      ¬ (Family.ofDeclared r 1 m = some (Family.ofNegative q) ∧ m.Suits v)) := by
  obtain ⟨n, hq⟩ := hq
  cases n with
  | zero => cases hq
  | succ n =>
    obtain ⟨⟨p, hp, hsource⟩, houtside⟩ := Negatives.exists_of_mem_union hq
    obtain ⟨s, rfl, -⟩ :=
      exists_scalar_of_flat_negative (hflat p (List.mem_of_mem_filter hp)) hsource
    obtain ⟨c, rfl⟩ := exists_of_generates_scalar hv
    have hmember (m : Pattern) (hm : m ∈ members) :
        m.Accepts (s.generate c) r ↔
          Family.ofDeclared r 1 m = some (Family.ofNegative (.scalar s)) ∧
            m.Suits (s.generate c) := by
      have hnull (h : s.generate c = .null) : ¬ m.Contains null r r := by
        cases s with
        | null => exact houtside.not_contains (.refl r) hm
        | _ => cases h
      rw [accepts_flat_iff hl (hflat m hm) hnull, Negatives.family_generate]
      rfl
    refine ⟨hmember, ?_⟩
    have hbounded : (union members title text).Bounded r 3 :=
      .of_inner nofun nofun fun m hm => (hflat m hm).bounded
    rw [hbounded.fails_check_iff hl (by decide), hbounded.accepts_iff_fits hl]
    have hnonNull : nonNull members ≠ [] := List.ne_nil_of_mem hp
    constructor
    · exact fun h m hm hsuits => h (.inl ⟨m, hm, (hmember m hm).2 hsuits⟩)
    · rintro h (⟨m, hm, ha⟩ | hnil)
      · exact h m hm ((hmember m hm).1 ha)
      · exact hnonNull hnil

/-- The whole numbers. -/
def integer : Pattern :=
  .scalar (.number .anyInteger)

/-- The scalar for numbers generates one. -/
theorem number_generates : number.Generates (.number .one) .empty :=
  ⟨1, default, rfl⟩

/-- The one that is generated from all numbers does not suit the number one thousand. -/
theorem thousandOrBoolean_fails :
    (∀ m ∈ [boolean, exact (.number .thousand)], m.IsFlat) ∧
      (union [boolean, exact (.number .thousand)] none none).HasNegative .empty .empty number ∧
      number.Generates (.number .one) .empty ∧
      Fails ((union [boolean, exact (.number .thousand)] none none).check (.number .one)
        .empty) := by
  have hflat : ∀ m ∈ [boolean, exact (.number .thousand)], m.IsFlat := by simp [boolean, IsFlat]
  have hq : (union [boolean, exact (.number .thousand)] none none).HasNegative .empty .empty
      number := ⟨3, List.mem_of_getElem? (i := 1) rfl⟩
  refine ⟨hflat, hq, number_generates, ?_⟩
  refine (fails_check_union_negative rfl hflat hq number_generates).2.2 fun m hm hsuits => ?_
  obtain rfl | rfl : m = boolean ∨ m = exact (.number .thousand) := by simpa using hm
  · cases hsuits.1
  · have hequal : Value.equal (.number .thousand) (.number .one) = true := hsuits.2
    cases hequal

/-- All numbers are a negative of the union of booleans and whole numbers too, and the one suits the
whole numbers, so the union accepts it. -/
theorem integer_accepts_negative :
    (union [boolean, integer] none none).HasNegative .empty .empty number ∧
      number.Generates (.number .one) .empty ∧
      integer.Accepts (.number .one) .empty ∧
      (union [boolean, integer] none none).Accepts (.number .one) .empty :=
  ⟨⟨3, List.mem_of_getElem? (i := 1) rfl⟩, number_generates, ⟨1, rfl⟩, ⟨2, rfl⟩⟩

end Pattern

end DataContract
