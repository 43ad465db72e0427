import DataContract.Proofs.Containment.Soundness
import DataContract.Proofs.Reading.Literals
import DataContract.Proofs.Texts

/-!
# Containment of texts

String-encoded patterns, comma-separated ones, the keys of dictionaries and the attributes of
elements are compared by the patterns of their texts, but they accept what these patterns read. That
is sound, since among scalars, exact values, unions and what accepts everything a pattern reads
every text that a pattern reads which it contains (`Pattern.exists_parse_of_encompasses`).

A scalar that contains an exact value is of its family, and then both read alike. Of the exact
values only numbers and strings come into question: what is read for any other one is a string or a
structure (`Value.family_ofText`).
-/

namespace DataContract

namespace Json.Reader

variable {keys : Keys} {fuel depth : Nat} {cs rest : List Char} {json : Json}

/-- What starts like an object or an array is read as one. -/
theorem structured_of_value (hs : Value.looksStructured cs = true)
    (h : value keys fuel depth cs = some (json, rest)) :
    (∃ items, json = .array items) ∨ ∃ members, json = .object members := by
  cases fuel with
  | zero => simp [value] at h
  | succ fuel =>
    cases cs with
    | nil => cases hs
    | cons c cs =>
      obtain rfl | rfl : c = '\x7b' ∨ c = '[' := by simpa [Value.looksStructured] using hs
      · have hskip : skipSpace ('\x7b' :: cs) = '\x7b' :: cs := rfl
        simp only [value, hskip] at h
        split at h
        · cases h
        · split at h
          · cases h
            exact .inr ⟨_, rfl⟩
          · split at h
            · cases h
            · obtain ⟨object, hobject, he⟩ := Option.map_eq_some_iff.1 h
              cases he
              cases keys with
              | lastStands => exact .inr ⟨_, (Option.some.inj hobject).symm⟩
              | distinct =>
                obtain ⟨-, he⟩ := Option.ite_none_right_eq_some.1 hobject
                exact .inr ⟨_, (Option.some.inj he).symm⟩
      · have hskip : skipSpace ('[' :: cs) = '[' :: cs := rfl
        simp only [value, hskip] at h
        split at h
        · cases h
        · split at h
          · cases h
            exact .inl ⟨_, rfl⟩
          · obtain ⟨items, -, he⟩ := Option.map_eq_some_iff.1 h
            cases he
            exact .inl ⟨_, rfl⟩

end Json.Reader

namespace Value

/-- The value of an object or an array is a structure. -/
theorem family_ofJson {json : Json} {v : Value}
    (hs : (∃ items, json = .array items) ∨ ∃ members, json = .object members)
    (h : ofJson json = .ok v) : Family.ofValue v = .structured := by
  rcases hs with ⟨items, rfl⟩ | ⟨members, rfl⟩
  · obtain ⟨vs, -, rfl⟩ := map_eq_ok.1 h
    rfl
  · obtain ⟨ms, -, rfl⟩ := map_eq_ok.1 h
    rfl

/-- As generic data a text is a string or a structure. -/
theorem family_ofText (text : String) :
    Family.ofValue (ofText text) = .string ∨ Family.ofValue (ofText text) = .structured := by
  unfold ofText
  dsimp only
  split
  · next hs =>
    split
    · exact .inl rfl
    · next json hread =>
      split
      · next v hv =>
        refine .inr (family_ofJson ?_ hv)
        unfold Json.read? at hread
        dsimp only at hread
        split at hread
        · next hvalue =>
          obtain ⟨-, he⟩ := Option.ite_none_right_eq_some.1 hread
          cases he
          exact Json.Reader.structured_of_value hs hvalue
        · cases hread
      · exact .inl rfl
  · exact .inl rfl

end Value

namespace Pattern

/-- Texts are read with scalars, with exact values, as whatever they are, or with a union that has
members. -/
def TextNode : Pattern → Prop
  | .scalar _ => True
  | .anything => True
  | .exact _ => True
  | .union members _ _ => members ≠ []
  | .enumeration shape => shape.members ≠ []
  | _ => False

variable {p q m : Pattern} {s : Scalar} {v w u : Value} {text : String} {r mine theirs : Resolver}
  {stack : TypeStack} {n : Nat}

/-! ## Scalars and exact values -/

/-- A scalar that accepts a value reads what is read as the value. -/
theorem parse_of_parseExact (hc : s.check v = .success)
    (h : Engine.parseExact v text = .ok u) : s.parse text = .ok u := by
  have hequal := equal_of_parseExact h
  have hread := Engine.readLike_of_parseExact h
  have hcheck : s.check u = .success := by
    rw [← Engine.isSuccess_iff, ← s.check_congr hequal, Engine.isSuccess_iff]
    exact hc
  have hfamily : Family.ofValue v = s.family := Scalar.family_of_check hc
  refine Scalar.parse_eq_ok_iff.2 ⟨?_, hcheck⟩
  cases v with
  | number d =>
    cases s with
    | number range => exact hread
    | _ => cases hfamily
  | string t => exact (Scalar.read_of_string hfamily.symm text).trans hread
  | null | boolean =>
    -- the text is read as generic data, which is neither null nor a boolean
    obtain rfl : Value.ofText text = u := Except.ok.inj hread
    rcases Value.family_ofText text with h | h <;> cases (Family.ofValue_congr hequal).trans h
  | object | array | xml => cases s <;> cases hfamily

/-- Equal exact values read the same texts. -/
theorem parseExact_of_parseExact (hequal : w.equal v = true)
    (h : Engine.parseExact v text = .ok u) : Engine.parseExact w text = .ok u := by
  refine Engine.parseExact_of_equal ?_ (Value.equal_trans _ _ _ hequal (equal_of_parseExact h))
  rw [Engine.readLike_congr (Family.ofValue_congr hequal)]
  exact Engine.readLike_of_parseExact h

/-- What a scalar reads its pattern reads. -/
theorem reads_of_parse (h : s.parse text = .ok v) : (scalar s).Reads text r :=
  ⟨1, v, Outcome.ofExcept_eq_ok.2 h⟩

/-- An exact value is read at once or not at all. -/
theorem reads_exact_iff : (exact v).Reads text r ↔ ∃ u, Engine.parseExact v text = .ok u := by
  constructor
  · rintro ⟨n, u, hn⟩
    cases n with
    | zero => cases hn
    | succ n => exact ⟨u, hn⟩
  · rintro ⟨u, hu⟩
    exact ⟨1, u, hu⟩

/-- Every text is read as something. -/
theorem reads_anything : anything.Reads text r :=
  ⟨1, .ofText text, rfl⟩

/-! ## Unions -/

/-- A union and an enumeration read by their members. -/
theorem parse_of_isUnion (hu : Engine.isUnion p = true) (n : Nat) (text : String) (r : Resolver) :
    (Engine.ofBudget (n + 1)).parse p text r =
      (Engine.ofBudget n).parseUnion p.unionMembers p.typeName text r := by
  cases p with
  | union | enumeration => rfl
  | _ => cases hu

/-- The members of a union are inside of it. -/
theorem inner_of_isUnion (hu : Engine.isUnion p = true) : p.inner = p.unionMembers := by
  cases p with
  | union | enumeration => rfl
  | _ => cases hu

/-- Reading with such a pattern ends on every budget that is above its weight. -/
theorem parse_ne_unfinished (hp : p.Everywhere TextNode) (hn : p.weight < n) :
    (Engine.ofBudget n).parse p text r ≠ .unfinished := by
  induction n generalizing p with
  | zero => exact absurd hn (Nat.not_lt_zero _)
  | succ n ih =>
    have hunion (hu : Engine.isUnion p = true) :
        (Engine.ofBudget (n + 1)).parse p text r ≠ .unfinished := by
      rw [parse_of_isUnion hu]
      refine Engine.parseUnion_ne_unfinished fun m hm => ?_
      have hlt := weight_lt_of_inner (inner_of_isUnion hu ▸ hm)
      exact ih (Engine.everywhere_unionMembers hp hm) (by omega)
    cases p with
    | scalar s => exact Outcome.ofExcept_ne_unfinished (s.parse text)
    | anything => rintro ⟨⟩
    | exact v => exact Engine.parseExact_ne_unfinished v text
    | union | enumeration => exact hunion rfl
    | _ => exact hp.here.elim

/-- What a pattern reads one of its members reads. -/
theorem exists_reads_unionMembers (h : q.Reads text r) : ∃ m ∈ q.unionMembers, m.Reads text r := by
  have hunion (hu : Engine.isUnion q = true) : ∃ m ∈ q.unionMembers, m.Reads text r := by
    obtain ⟨n, v, hn⟩ := h
    cases n with
    | zero => cases hn
    | succ n =>
      rw [parse_of_isUnion hu] at hn
      rcases Engine.exists_of_parseUnion hn with ⟨m, hm, hread⟩ | ⟨hm, hread⟩
      · exact ⟨m, hm, n, v, hread⟩
      · exact ⟨_, hm, reads_of_parse hread⟩
  cases q with
  | union | enumeration => exact hunion rfl
  | _ => exact ⟨_, List.mem_cons_self, h⟩

/-- What a member of a union reads the union reads, if the other members come to an end. Null is
tried after them. -/
theorem reads_of_mem (hp : p.Everywhere TextNode) (hu : Engine.isUnion p = true)
    (hm : m ∈ p.unionMembers) (h : m.Reads text r) : p.Reads text r := by
  obtain ⟨k, v, hk⟩ := h
  let budget := max k p.weight
  have hends (w : Pattern) (hw : w ∈ p.unionMembers) :
      (Engine.ofBudget budget).parse w text r ≠ .unfinished := by
    have hlt := weight_lt_of_inner (inner_of_isUnion hu ▸ hw)
    exact parse_ne_unfinished (Engine.everywhere_unionMembers hp hw)
      (hlt.trans_le (Nat.le_max_right _ _))
  obtain ⟨w, hread, -⟩ :=
    ((Engine.ofBudget_below (Nat.le_max_left k p.weight)).parse m text (.refl r)).1 v hk
  refine ⟨budget + 1, ?_⟩
  unfold Engine.Reads
  rw [parse_of_isUnion hu]
  by_cases hsome : ∃ m ∈ nonNull p.unionMembers, (Engine.ofBudget budget).Reads r m text
  · obtain ⟨u, hparse, -⟩ := Engine.exists_parseUnion p.typeName
      (fun w hw => hends w (List.mem_of_mem_filter hw)) hsome
    exact ⟨u, hparse⟩
  · have hrefuses (w : Pattern) (hw : w ∈ nonNull p.unionMembers) :
        (Engine.ofBudget budget).Refuses r w text := by
      cases hparse : (Engine.ofBudget budget).parse w text r with
      | ok u => exact absurd ⟨w, hw, u, hparse⟩ hsome
      | error err => exact ⟨err, hparse⟩
      | unfinished => exact absurd hparse (hends w (List.mem_of_mem_filter hw))
    -- so the member that reads the text is null
    have hnull : m.isNull = true := by
      by_contra hne
      exact hsome ⟨m, List.mem_filter.2 ⟨hm, by simpa using hne⟩, w, hread⟩
    have hhas : hasNull p.unionMembers = true := List.any_eq_true.2 ⟨m, hm, hnull⟩
    obtain ⟨u, hparse⟩ : ∃ u, Scalar.parse .null text = .ok u := by
      cases m with
      | scalar s =>
        cases s with
        | null => exact reads_scalar ⟨budget, w, hread⟩
        | _ => cases hnull
      | _ => cases hnull
    exact ⟨u, Engine.parseUnion_of_null _ hrefuses hhas hparse⟩

end Pattern

namespace Engine

open Pattern (TextNode)

variable {e : Engine} {p q : Pattern} {text : String} {mine theirs : Resolver} {stack : TypeStack}

/-! ## Containment -/

/-- What a pattern reads is read by every pattern of which the engine finds that it contains it. -/
def Conveys (e : Engine) (text : String) (mine theirs : Resolver) : Prop :=
  ∀ p q stack, p.Everywhere TextNode → q.Everywhere TextNode →
    Succeeds (e.encompasses p q mine theirs stack) → q.Reads text theirs → p.Reads text mine

/-- A union that contains a pattern has a member for the one that reads the text. -/
theorem reads_of_encompassesUnion {name : String} (he : e.Conveys text mine theirs)
    (hp : p.Everywhere TextNode) (hq : q.Everywhere TextNode) (hu : isUnion p = true)
    (hne : p.unionMembers ≠ [])
    (h : Succeeds (e.encompassesUnion p.unionMembers name q mine theirs stack))
    (hr : q.Reads text theirs) : p.Reads text mine := by
  obtain ⟨m, hm, hread⟩ := Pattern.exists_reads_unionMembers hr
  obtain ⟨w, hw, hs⟩ := succeeds_encompassesUnion hne h m hm
  exact Pattern.reads_of_mem hp hu hw
    (he w m stack (everywhere_unionMembers hp hw) (everywhere_unionMembers hq hm) hs hread)

/-- Containment by the kind of the containing pattern, one case for each kind. -/
theorem reads_of_byKind (he : e.Conveys text mine theirs) (hp : p.Everywhere TextNode)
    (hq : q.Everywhere TextNode) (h : Succeeds (e.encompassesByKind p q mine theirs stack))
    (hr : q.Reads text theirs) : p.Reads text mine := by
  cases p with
  | anything => exact Pattern.reads_anything
  | union members => exact reads_of_encompassesUnion he hp hq rfl hp.here h hr
  | enumeration shape => exact reads_of_encompassesUnion he hp hq rfl hp.here h hr
  | scalar s =>
    cases q with
    | scalar t =>
      obtain ⟨v, hv⟩ := Pattern.reads_scalar hr
      exact Pattern.reads_of_parse
        (Scalar.parse_of_encompasses (isSuccess_iff.1 (succeeds_some.1 h)) hv)
    | exact v =>
      obtain ⟨u, hu⟩ := Pattern.reads_exact_iff.1 hr
      exact Pattern.reads_of_parse
        (Pattern.parse_of_parseExact (isSuccess_iff.1 (succeeds_some.1 h)) hu)
    | _ => exact absurd (succeeds_some.1 h) (by simp [encompassesScalar, otherKind])
  | exact w =>
    cases q with
    | exact v =>
      obtain ⟨u, hu⟩ := Pattern.reads_exact_iff.1 hr
      have hequal : w.equal v = true := fits_of_succeeds (e := e) (r := mine) (p := .exact w) h
      exact Pattern.reads_exact_iff.2 ⟨u, Pattern.parseExact_of_parseExact hequal hu⟩
    | _ => exact absurd (succeeds_some.1 h) (by simp [encompassesExact, otherKind])
  | _ => exact hp.here.elim

/-- A step of comparing keeps what is read readable. -/
theorem conveys_step (he : e.Conveys text mine theirs) (hp : p.Everywhere TextNode)
    (hq : q.Everywhere TextNode) (h : Succeeds (e.encompassesStep p q mine theirs stack))
    (hr : q.Reads text theirs) : p.Reads text mine := by
  unfold encompassesStep at h
  split at h
  · exact hq.here.elim
  · exact hq.here.elim
  · exact hq.here.elim
  · split at h
    · obtain ⟨m, hm, hread⟩ := Pattern.exists_reads_unionMembers hr
      have hs := succeeds_map_under.1 (succeeds_all_traverse h m hm)
      exact he p m stack hp (everywhere_unionMembers hq hm) hs hread
    · exact reads_of_byKind he hp hq h hr

/-- At every budget a pattern reads what the patterns do that it contains. -/
theorem conveys_ofBudget (n : Nat) : (ofBudget n).Conveys text mine theirs := by
  induction n with
  | zero => exact fun _ _ _ _ _ h => absurd h not_succeeds_none
  | succ n ih => exact fun _ _ _ hp hq h => conveys_step ih hp hq h

end Engine

namespace Pattern

variable {p q : Pattern} {text : String} {mine theirs : Resolver} {stack : TypeStack}

/-- What such a pattern reads on some budget it reads on the computed one. -/
theorem Reads.exists_parse {r : Resolver} (hp : p.Everywhere TextNode) (h : p.Reads text r) :
    ∃ v, p.parse text r = .ok v := by
  have hweight : p.weight < Engine.budgetFor (p.weight + text.length + r.weight) := by
    have htwice := Engine.two_mul_le_budgetFor (p.weight + text.length + r.weight)
    have hpositive : 0 < r.weight := by
      unfold Resolver.weight
      omega
    omega
  cases hparse : p.parse text r with
  | ok v => exact ⟨v, rfl⟩
  | error err => exact absurd ⟨_, err, hparse⟩ (h.not_refuses (.refl r))
  | unfinished => exact absurd hparse (parse_ne_unfinished hp hweight)

/-- Among scalars, exact values, what accepts everything and unions of these, a pattern reads every
text that a pattern reads which it contains, whatever comparisons are going on. -/
theorem exists_parse_of_encompasses {n : Nat} (hp : p.Everywhere TextNode)
    (hq : q.Everywhere TextNode)
    (hc : Succeeds ((Engine.ofBudget n).encompasses p q mine theirs stack))
    (hr : q.Reads text theirs) : ∃ v, p.parse text mine = .ok v :=
  (Engine.conveys_ofBudget n p q stack hp hq hc hr).exists_parse hp

/-- A boolean, or a number or null. -/
def answer : Pattern :=
  .union [.boolean, .nullable .number] none none

/-- A boolean, or a number or null, reads texts by its members. -/
theorem answer_everywhere : answer.Everywhere TextNode := by
  have hnumber : number.Everywhere TextNode := .leaf trivial rfl
  have hnull : null.Everywhere TextNode := .leaf trivial rfl
  refine .intro (List.cons_ne_nil _ _) (List.forall_mem_cons.2 ⟨.leaf trivial rfl, ?_⟩)
  exact List.forall_mem_singleton.2 (.intro (List.cons_ne_nil _ _)
    (List.forall_mem_cons.2 ⟨hnull, List.forall_mem_singleton.2 hnumber⟩))

/-- A rating reads texts by its members. -/
theorem rating_everywhere : rating.Everywhere TextNode := by
  refine .intro (List.cons_ne_nil _ _) ?_
  exact List.forall_mem_cons.2 ⟨.leaf trivial rfl, List.forall_mem_cons.2
    ⟨.leaf trivial rfl, List.forall_mem_singleton.2 (.leaf trivial rfl)⟩⟩

/-- The answer contains the rating and reads the texts that the rating reads: a number with needless
digits, and null from its word. -/
theorem answer_reads_rating :
    (answer.Everywhere TextNode ∧ rating.Everywhere TextNode) ∧
      answer.Contains rating .empty .empty ∧
      (rating.Reads "1.50" .empty ∧ ∃ v, answer.parse "1.50" .empty = .ok v) ∧
      (rating.Reads "null" .empty ∧ ∃ v, answer.parse "null" .empty = .ok v) := by
  have hcontains : Succeeds ((Engine.ofBudget 4).encompasses answer rating .empty .empty []) := rfl
  have hnumber : rating.Reads "1.50" .empty := ⟨2, _, rfl⟩
  have hnull : rating.Reads "null" .empty := ⟨2, _, rfl⟩
  exact ⟨⟨answer_everywhere, rating_everywhere⟩, ⟨4, hcontains⟩,
    ⟨hnumber, exists_parse_of_encompasses answer_everywhere rating_everywhere hcontains hnumber⟩,
    hnull, exists_parse_of_encompasses answer_everywhere rating_everywhere hcontains hnull⟩

end Pattern

end DataContract
