import DataContract.Proofs.Enumerations
import DataContract.Proofs.Generation.Scalars
import DataContract.Proofs.Reading
import DataContract.Proofs.Termination.Budget

/-!
# Values are read from their literals

Where a value stands inside a text it is written as its literal, so a pattern should read the
literals of the values that it accepts. A scalar does (`Scalar.parse_literal`). An exact value is
read by its kind, but only numbers and strings have readers of their own: for null and the booleans
the text stays a string, which the exact value then does not accept. What an atom accepts it reads
from its literal exactly when it is no such value (`Pattern.parse_literal_of_accepts`), and it reads
an equal value, except that an enumeration of strings may read null as the empty string.
-/

namespace DataContract

namespace Engine

variable {e : Engine} {a b u v : Value} {text : String} {r : Resolver} {members : List Pattern}

/-! ## Exact values -/

/-- Exact values of one family are read alike. -/
theorem readLike_congr (h : Family.ofValue a = Family.ofValue b) (text : String) :
    readLike a text = readLike b text := by
  cases a with
  | string =>
    cases b with
    | string => rfl
    | _ => cases h
  | number =>
    cases b with
    | number => rfl
    | _ => cases h
  | _ =>
    cases b with
    | string | number => cases h
    | _ => rfl

/-- A number or a string is read from its literal, as an equal value. -/
theorem readLike_literal (hv : Family.ofValue v = .number ∨ Family.ofValue v = .string) :
    ∃ u, readLike v v.literal = .ok u ∧ u.equal v = true := by
  cases v with
  | number d =>
    refine ⟨.number d.normalize, ?_, Decimal.normalize_equal d⟩
    simp [readLike, Value.literal, Value.display, Decimal.readDecimal_text, Except.map]
  | string text => exact ⟨.string text, rfl, Value.equal_self _⟩
  | _ => rcases hv with hv | hv <;> cases hv

/-- The literal of null or of a boolean is read as a string. -/
theorem readLike_literal_word (hv : Family.ofValue v = .null ∨ Family.ofValue v = .boolean) :
    readLike v v.literal = .ok (.string v.literal) := by
  cases v with
  | null => rfl
  | boolean b => cases b <;> rfl
  | _ => rcases hv with hv | hv <;> cases hv

/-- An exact value takes what is read if it is equal. -/
theorem parseExact_of_equal (hread : readLike a text = .ok u) (h : a.equal u = true) :
    parseExact a text = .ok u := by
  have hcheck : checkExact a u = .success := if_pos h
  rw [parseExact, hread]
  simp only [hcheck, accepted]

/-- An exact reading is a reading in the kind of the expected value. -/
theorem readLike_of_parseExact (h : parseExact a text = .ok u) : readLike a text = .ok u := by
  unfold parseExact at h
  split at h
  · cases h
  · next w hw =>
    obtain ⟨-, rfl⟩ := eq_of_accepted h
    exact hw

/-- An exact value does not take what is read if it is not equal. -/
theorem exists_parseExact_error (hread : readLike a text = .ok u) (h : a.equal u = false) :
    ∃ err, parseExact a text = .error err := by
  have hcheck : checkExact a u = .mismatch a.display u.display :=
    if_neg (show ¬ a.equal u = true by simp [h])
  rw [parseExact, hread]
  simp only [hcheck, MatchResult.mismatch, MatchResult.fail, accepted]
  exact ⟨_, rfl⟩

/-! ## Unions -/

/-- If none of the members is left unfinished and one reads the text, they read it. -/
theorem exists_parseMembers (last : Option ContractError)
    (hends : ∀ p ∈ members, e.parse p text r ≠ .unfinished)
    (hreads : ∃ p ∈ members, e.Reads r p text) :
    ∃ v, e.parseMembers text r members last = .ok (.ok v) := by
  induction members generalizing last with
  | nil => simp at hreads
  | cons p members ih =>
    obtain ⟨hhead, htail⟩ := List.forall_mem_cons.1 hends
    rw [parseMembers]
    split
    · exact ⟨_, rfl⟩
    · next err herror =>
      refine ih _ htail ?_
      obtain ⟨q, hq, v, hv⟩ := hreads
      rcases List.mem_cons.1 hq with rfl | hq
      · cases herror.symm.trans hv
      · exact ⟨q, hq, v, hv⟩
    · next hunfinished => exact absurd hunfinished hhead

/-- If all members refuse the text, there is no more than an error. -/
theorem parseMembers_of_refuses (last : Option ContractError)
    (h : ∀ p ∈ members, e.Refuses r p text) :
    ∃ last', e.parseMembers text r members last = .ok (.error last') := by
  induction members generalizing last with
  | nil => exact ⟨last, rfl⟩
  | cons p members ih =>
    obtain ⟨⟨err, hhead⟩, htail⟩ := List.forall_mem_cons.1 h
    rw [parseMembers, hhead]
    exact ih _ htail

/-- A union reads what a member besides null reads. -/
theorem exists_parseUnion (name : String)
    (hends : ∀ p ∈ Pattern.nonNull members, e.parse p text r ≠ .unfinished)
    (hreads : ∃ p ∈ Pattern.nonNull members, e.Reads r p text) :
    ∃ v, e.parseUnion members name text r = .ok v ∧
      ∃ p ∈ Pattern.nonNull members, e.parse p text r = .ok v := by
  obtain ⟨v, hv⟩ := exists_parseMembers none hends hreads
  refine ⟨v, ?_, exists_of_parseMembers hv⟩
  rw [parseUnion, hv]

/-- A text that only null reads is null. -/
theorem parseUnion_of_null (name : String)
    (h : ∀ p ∈ Pattern.nonNull members, e.Refuses r p text)
    (hnull : Pattern.hasNull members = true) (hv : Scalar.parse .null text = .ok v) :
    e.parseUnion members name text r = .ok v := by
  obtain ⟨last, hlast⟩ := parseMembers_of_refuses none h
  rw [parseUnion, hlast]
  simp only [hnull, hv, if_true]

/-- A text that neither the other members nor null reads is refused. -/
theorem exists_parseUnion_error (name : String)
    (h : ∀ p ∈ Pattern.nonNull members, e.Refuses r p text)
    (hnull : ∃ err, Scalar.parse .null text = .error err) :
    ∃ err, e.parseUnion members name text r = .error err := by
  obtain ⟨last, hlast⟩ := parseMembers_of_refuses none h
  obtain ⟨err, herr⟩ := hnull
  rw [parseUnion, hlast]
  simp only [herr, ite_self]
  exact ⟨_, rfl⟩

end Engine

namespace Pattern

/-! ## Literals -/

/-- A scalar, an exact value that is no structure, or a checked enumeration. -/
def IsAtom : Pattern → Prop
  | .scalar _ => True
  | .exact v => Family.ofValue v ≠ .structured
  | .enumeration shape => shape.Checked
  | _ => False

/-- An exact value that is null or a boolean, or a boolean of an enumeration. -/
def Illegible : Pattern → Value → Prop
  | .exact _, .null => True
  | .exact _, .boolean _ => True
  | .enumeration _, .boolean _ => True
  | _, _ => False

variable {p : Pattern} {u v w : Value} {r : Resolver} {shape : Enumeration} {n : Nat}

/-- The computed budget has two steps. -/
theorem exists_parse_eq (p : Pattern) (text : String) (r : Resolver) :
    ∃ n, p.parse text r = (Engine.ofBudget (n + 2)).parse p text r := by
  have hle := Engine.sixteen_le_budgetFor (p.weight + text.length + r.weight)
  refine ⟨Engine.budgetFor (p.weight + text.length + r.weight) - 2, ?_⟩
  rw [parse, Nat.sub_add_cancel (by omega)]

/-- A value of the family of an exact number or string is read from its literal. -/
theorem exists_parseExact (hw : w.equal v = true)
    (hv : Family.ofValue v = .number ∨ Family.ofValue v = .string) :
    ∃ u, Engine.parseExact w v.literal = .ok u ∧ u.equal v = true := by
  obtain ⟨u, hread, hu⟩ := Engine.readLike_literal hv
  rw [← Engine.readLike_congr (Family.ofValue_congr hw)] at hread
  have heq : w.equal u = true := Value.equal_trans _ _ _ hw (Value.equal_symm _ _ hu)
  exact ⟨u, Engine.parseExact_of_equal hread heq, hu⟩

/-- An exact value of another kind than string does not take the literal of a word. -/
theorem exists_parseExact_word_error (hw : Family.ofValue w = Family.ofValue v)
    (hv : Family.ofValue v = .null ∨ Family.ofValue v = .boolean) :
    ∃ err, Engine.parseExact w v.literal = .error err := by
  have hread := Engine.readLike_literal_word hv
  rw [← Engine.readLike_congr hw] at hread
  refine Engine.exists_parseExact_error hread ?_
  cases w with
  | string => cases v <;> simp [Family.ofValue] at hw hv
  | _ => rfl

/-- An exact value reads the empty text as the empty string or not at all. -/
theorem parseExact_empty (w : Value) (hw : Family.ofValue w ≠ .structured) :
    Engine.parseExact w "" = .ok (.string "") ∨ ∃ err, Engine.parseExact w "" = .error err := by
  cases w with
  | null => exact .inr ⟨_, rfl⟩
  | boolean b => exact .inr ⟨_, rfl⟩
  | number d => exact .inr ⟨_, rfl⟩
  | string text =>
    cases heq : (Value.string text).equal (.string "") with
    | true => exact .inl (Engine.parseExact_of_equal rfl heq)
    | false => exact .inr (Engine.exists_parseExact_error rfl heq)
  | _ => exact absurd rfl hw

/-! ## Enumerations -/

/-- An enumeration reads what its literals read, if they all agree on what that is. -/
theorem parse_enumeration_of_literal {text : String} (hw : w ∈ shape.literals)
    (hread : Engine.parseExact w text = .ok u)
    (h : ∀ w ∈ shape.literals,
      Engine.parseExact w text = .ok u ∨ ∃ err, Engine.parseExact w text = .error err) :
    (Engine.ofBudget (n + 2)).parse (.enumeration shape) text r = .ok u := by
  have hmember (p : Pattern) (hp : p ∈ nonNull shape.members) :
      (Engine.ofBudget (n + 1)).parse p text r = .ok u ∨
        ∃ err, (Engine.ofBudget (n + 1)).parse p text r = .error err := by
    rw [shape.nonNull_members] at hp
    obtain ⟨w', hw', rfl⟩ := List.mem_map.1 hp
    exact h w' hw'
  have hends (p : Pattern) (hp : p ∈ nonNull shape.members) :
      (Engine.ofBudget (n + 1)).parse p text r ≠ .unfinished := by
    rcases hmember p hp with h | ⟨err, h⟩ <;> rw [h] <;> exact nofun
  have hexact : exact w ∈ nonNull shape.members := by
    rw [shape.nonNull_members]
    exact List.mem_map_of_mem hw
  obtain ⟨u', hparse, p, hp, hu'⟩ :=
    Engine.exists_parseUnion (enumeration shape).typeName hends ⟨exact w, hexact, u, hread⟩
  rcases hmember p hp with h | ⟨err, h⟩
  · cases h.symm.trans hu'
    exact hparse
  · cases h.symm.trans hu'

/-- A text that none of the literals of an enumeration reads is refused by each of its members. -/
theorem refuses_of_literals {text : String}
    (h : ∀ w ∈ shape.literals, ∃ err, Engine.parseExact w text = .error err) (p : Pattern)
    (hp : p ∈ nonNull shape.members) : (Engine.ofBudget (n + 1)).Refuses r p text := by
  rw [shape.nonNull_members] at hp
  obtain ⟨w, hw, rfl⟩ := List.mem_map.1 hp
  exact h w hw

/-- A nullable enumeration reads as null what no literal reads. -/
theorem parse_enumeration_of_null {text : String} (hnullable : shape.nullable = true)
    (hv : Scalar.parse .null text = .ok v)
    (h : ∀ w ∈ shape.literals, ∃ err, Engine.parseExact w text = .error err) :
    (Engine.ofBudget (n + 2)).parse (.enumeration shape) text r = .ok v :=
  Engine.parseUnion_of_null _ (refuses_of_literals h) (shape.hasNull_members.trans hnullable) hv

/-- An enumeration refuses what neither a literal reads nor null. -/
theorem exists_parse_enumeration_error {text : String}
    (hnull : ∃ err, Scalar.parse .null text = .error err)
    (h : ∀ w ∈ shape.literals, ∃ err, Engine.parseExact w text = .error err) :
    ∃ err, (Engine.ofBudget (n + 2)).parse (.enumeration shape) text r = .error err :=
  Engine.exists_parseUnion_error _ (refuses_of_literals h) hnull

/-- An enumeration of numbers or strings reads the literal of what it accepts. -/
theorem exists_parse_enumeration (hc : shape.Checked) (hw : w ∈ shape.literals)
    (heq : w.equal v = true) (hv : Family.ofValue v = .number ∨ Family.ofValue v = .string) :
    ∃ u, (Engine.ofBudget (n + 2)).parse (.enumeration shape) v.literal r = .ok u ∧
      u.equal v = true := by
  obtain ⟨u, hparse, hu⟩ := exists_parseExact heq hv
  refine ⟨u, parse_enumeration_of_literal hw hparse fun w' hw' => ?_, hu⟩
  -- All literals are of one family, so they read the same value and differ in whether they take it.
  have hfamily : Family.ofValue w' = Family.ofValue v :=
    (hc.uniform.2 w' hw').trans ((hc.uniform.2 w hw).symm.trans (Family.ofValue_congr heq))
  have hread : Engine.readLike w' v.literal = .ok u := by
    rw [Engine.readLike_congr (hfamily.trans (Family.ofValue_congr heq).symm)]
    exact Engine.readLike_of_parseExact hparse
  cases he : w'.equal u with
  | true => exact .inl (Engine.parseExact_of_equal hread he)
  | false => exact .inr (Engine.exists_parseExact_error hread he)

/-- A nullable enumeration reads the literal of null as null or as the empty string. -/
theorem exists_parse_nullable (hc : shape.Checked) (hnullable : shape.nullable = true) :
    ∃ u, (Engine.ofBudget (n + 2)).parse (.enumeration shape) "" r = .ok u ∧
      (u = .null ∨ u = .string "") := by
  have hliteral (w : Value) (hw : w ∈ shape.literals) :
      Engine.parseExact w "" = .ok (.string "") ∨ ∃ err, Engine.parseExact w "" = .error err := by
    refine parseExact_empty w fun hstructured => ?_
    rw [hc.uniform.2 w hw] at hstructured
    rcases hc.family_cases with hf | hf | hf <;> cases hf.symm.trans hstructured
  by_cases hreads : ∃ w ∈ shape.literals, Engine.parseExact w "" = .ok (.string "")
  · obtain ⟨w, hw, hread⟩ := hreads
    exact ⟨_, parse_enumeration_of_literal hw hread hliteral, .inr rfl⟩
  · refine ⟨.null, parse_enumeration_of_null hnullable rfl fun w hw => ?_, .inl rfl⟩
    exact (hliteral w hw).resolve_left fun h => hreads ⟨w, hw, h⟩

/-- An enumeration of booleans does not read the literals of booleans. -/
theorem exists_parse_boolean_error {b : Bool} (hc : shape.Checked)
    (hf : shape.family = .boolean) : ∃ err,
      (Engine.ofBudget (n + 2)).parse (.enumeration shape) (Value.boolean b).literal r =
        .error err := by
  refine exists_parse_enumeration_error (by cases b <;> exact ⟨_, rfl⟩) fun w hw => ?_
  exact exists_parseExact_word_error ((hc.uniform.2 w hw).trans hf) (.inr rfl)

/-! ## Atoms -/

/-- An exact value reads the literals of numbers and strings that equal it, and refuses its own
literal if it is null or a boolean. -/
theorem parseExact_of_accepts (hw : w.equal v = true) (hs : Family.ofValue w ≠ .structured) :
    (¬ (exact w).Illegible v →
      ∃ u, Engine.parseExact w v.literal = .ok u ∧ u.equal v = true) ∧
      ((exact w).Illegible v → ∃ err, Engine.parseExact w v.literal = .error err) := by
  have hfamily : Family.ofValue w = Family.ofValue v := Family.ofValue_congr hw
  cases v with
  | null =>
    exact ⟨fun h => absurd trivial h, fun _ => exists_parseExact_word_error hfamily (.inl rfl)⟩
  | boolean =>
    exact ⟨fun h => absurd trivial h, fun _ => exists_parseExact_word_error hfamily (.inr rfl)⟩
  | number => exact ⟨fun _ => exists_parseExact hw (.inl rfl), False.elim⟩
  | string => exact ⟨fun _ => exists_parseExact hw (.inr rfl), False.elim⟩
  | _ => exact absurd hfamily hs

/-- An enumeration reads the literals of what it accepts, null perhaps as the empty string, and
refuses those of booleans. -/
theorem parse_enumeration_of_accepts (hr : r.config.mockMode = false) (hc : shape.Checked)
    (ha : (enumeration shape).Accepts v r) :
    (¬ (enumeration shape).Illegible v →
      ∃ u, (Engine.ofBudget (n + 2)).parse (.enumeration shape) v.literal r = .ok u ∧
        (u.equal v = true ∨ v = .null ∧ u = .string "")) ∧
      ((enumeration shape).Illegible v →
        ∃ err, (Engine.ofBudget (n + 2)).parse (.enumeration shape) v.literal r = .error err) := by
  rcases exists_literal_of_accepts hr hc ha with ⟨w, hw, heq⟩ | ⟨hnullable, rfl⟩
  · have hfamily : Family.ofValue v = shape.family :=
      (Family.ofValue_congr heq).symm.trans (hc.uniform.2 w hw)
    have hreads (hv : Family.ofValue v = .number ∨ Family.ofValue v = .string) :
        ∃ u, (Engine.ofBudget (n + 2)).parse (.enumeration shape) v.literal r = .ok u ∧
          (u.equal v = true ∨ v = .null ∧ u = .string "") := by
      obtain ⟨u, hparse, hu⟩ := exists_parse_enumeration hc hw heq hv
      exact ⟨u, hparse, .inl hu⟩
    cases v with
    | boolean b =>
      exact ⟨fun h => absurd trivial h, fun _ => exists_parse_boolean_error hc hfamily.symm⟩
    | number => exact ⟨fun _ => hreads (.inl rfl), False.elim⟩
    | string => exact ⟨fun _ => hreads (.inr rfl), False.elim⟩
    | _ => rcases hc.family_cases with hf | hf | hf <;> cases hfamily.trans hf
  · refine ⟨fun _ => ?_, False.elim⟩
    obtain ⟨u, hparse, rfl | rfl⟩ := exists_parse_nullable (n := n) (r := r) hc hnullable
    · exact ⟨.null, hparse, .inl rfl⟩
    · exact ⟨.string "", hparse, .inr ⟨rfl, rfl⟩⟩

/-- What an atom accepts it reads from the literal, unless it is an exact null or boolean or a
boolean of an enumeration, which are refused. What is read is equal, except that an enumeration may
read null as the empty string. -/
theorem parse_literal_of_accepts (hr : r.config.mockMode = false) (hp : p.IsAtom)
    (ha : p.Accepts v r) :
    (¬ p.Illegible v → ∃ w, p.parse v.literal r = .ok w ∧
      (w.equal v = true ∨ ∃ shape, p = .enumeration shape ∧ v = .null ∧ w = .string "")) ∧
      (p.Illegible v → ∃ err, p.parse v.literal r = .error err) := by
  obtain ⟨n, hn⟩ := exists_parse_eq p v.literal r
  rw [hn]
  cases p with
  | scalar s =>
    obtain ⟨w, hparse, hw⟩ := Scalar.parse_literal (ha.fits hr : s.check v = .success)
    exact ⟨fun _ => ⟨w, Outcome.ofExcept_eq_ok.2 hparse, .inl hw⟩, False.elim⟩
  | exact w =>
    obtain ⟨hreads, hrefuses⟩ := parseExact_of_accepts (ha.fits hr : w.equal v = true) hp
    refine ⟨fun h => ?_, hrefuses⟩
    obtain ⟨u, hparse, hu⟩ := hreads h
    exact ⟨u, hparse, .inl hu⟩
  | enumeration shape =>
    obtain ⟨hreads, hrefuses⟩ := parse_enumeration_of_accepts (n := n) hr hp ha
    refine ⟨fun h => ?_, hrefuses⟩
    obtain ⟨u, hparse, hu⟩ := hreads h
    exact ⟨u, hparse, hu.imp_right fun h => ⟨shape, rfl, h⟩⟩
  | _ => exact hp.elim

/-- One and a half, with needless digits. -/
def half : Decimal :=
  ⟨false, 1500, 3, by decide, by decide⟩

/-- One, one and a half, or null. -/
def rating : Pattern :=
  .enumeration ⟨[.number .one, .number half], true, none, none⟩

/-- A rating reads the number that it accepts from its literal, and an exact boolean refuses its
own. -/
theorem rating_parse_literal :
    rating.Accepts (.number half.normalize) .empty ∧
      (∃ w, rating.parse (Value.number half.normalize).literal .empty = .ok w ∧
        w.equal (.number half.normalize) = true) ∧
      (exact (.boolean true)).Accepts (.boolean true) .empty ∧
      ∃ err, (exact (.boolean true)).parse (Value.boolean true).literal .empty = .error err := by
  have hrating : rating.IsAtom :=
    ⟨[.number .one, .number half], true, _, rfl, rfl⟩
  have haccepts : rating.Accepts (.number half.normalize) .empty := ⟨2, rfl⟩
  have hboolean : (exact (.boolean true)).IsAtom := by
    intro hstructured
    cases hstructured
  have hexact : (exact (.boolean true)).Accepts (.boolean true) .empty := ⟨1, rfl⟩
  refine ⟨haccepts, ?_, hexact, (parse_literal_of_accepts rfl hboolean hexact).2 trivial⟩
  obtain ⟨w, hparse, hw | ⟨_, _, hnull, -⟩⟩ :=
    (parse_literal_of_accepts rfl hrating haccepts).1 nofun
  · exact ⟨w, hparse, hw⟩
  · cases hnull

/-- Exact null and exact true accept themselves and do not read their own literals, which the
scalars for null and booleans read. -/
theorem exact_word_refuses :
    (exact .null).check .null .empty = some .success ∧
      (∃ err, (exact .null).parse Value.null.literal .empty = .error err) ∧
      null.parse Value.null.literal .empty = .ok .null ∧
      (exact (.boolean true)).check (.boolean true) .empty = some .success ∧
      (∃ err, (exact (.boolean true)).parse (Value.boolean true).literal .empty = .error err) ∧
      boolean.parse (Value.boolean true).literal .empty = .ok (.boolean true) :=
  ⟨rfl, ⟨_, rfl⟩, rfl, rfl, ⟨_, rfl⟩, rfl⟩

end Pattern

end DataContract
