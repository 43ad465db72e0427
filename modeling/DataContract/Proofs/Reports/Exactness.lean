import DataContract.Proofs.Everywhere
import DataContract.Proofs.ObjectKeys
import DataContract.Proofs.Reports.Violations
import DataContract.Proofs.Shapes.Literals
import DataContract.Proofs.Termination.Budget

/-!
# Reports are exact

For patterns made of objects, arrays without a repetition, lists and scalars, what is wrong with a
value is said without matching it (`Pattern.Violates`). The report of a match has one line for each
of these violations and no other line, at every object those about its keys before those about its
values (`Pattern.check_lists_violations`).
-/

namespace DataContract

namespace Pattern

/-- The pattern is for objects or for arrays, and the value is none. -/
def Misshaped : Pattern → Value → Prop
  | .object .., .object _ => False
  | .object .., _ => True
  | .array _, .array _ => False
  | .array _, _ => True
  | .list .., .array _ => False
  | .list .., _ => True
  | _, _ => False

/-- What is wrong with a value: with the value itself, which hides its parts unless it is an object,
or with one of its parts. -/
inductive Violates : Pattern → Value → Violation → Prop where
  | scalar {kind : Scalar} {v : Value} (h : kind.check v ≠ .success) :
      Violates (.scalar kind) v (.root (.scalar kind v))
  | shape {p : Pattern} {v : Value} (h : p.Misshaped v) : Violates p v (.root (.shape p v))
  | undeclared {layout : Layout} {keys : List (String × Pattern)} {title : Option String}
      {members : List (String × Value)} {name : String} (hclosed : isOpen keys = false)
      (hname : name ∈ Fields.names members) (h : ∀ m ∈ declaredKeys keys, Key.base m.1 ≠ name) :
      Violates (.object layout keys title) (.object members) (.root (.undeclared name))
  | missing {layout : Layout} {keys : List (String × Pattern)} {title : Option String}
      {members : List (String × Value)} {m : String × Pattern} (hm : m ∈ declaredKeys keys)
      (hmandatory : Key.isOptional m.1 = false) (h : Key.base m.1 ∉ Fields.names members) :
      Violates (.object layout keys title) (.object members) (.root (.missing (Key.base m.1)))
  | member {layout : Layout} {keys : List (String × Pattern)} {title : Option String}
      {members : List (String × Value)} {m : String × Pattern} {w : Value} {x : Violation}
      (hm : m ∈ declaredKeys keys) (hw : Fields.get? members (Key.base m.1) = some w)
      (h : Violates m.2 w x) :
      Violates (.object layout keys title) (.object members) (x.inside (.key (Key.base m.1)))
  | length {elements : List Pattern} {items : List Value} (h : items.length ≠ elements.length) :
      Violates (.array elements) (.array items) (.root (.length elements.length items.length))
  | element {elements : List Pattern} {items : List Value} {i : Nat} {p : Pattern} {w : Value}
      {x : Violation} (hlength : items.length = elements.length) (hp : elements[i]? = some p)
      (hw : items[i]? = some w) (h : Violates p w x) :
      Violates (.array elements) (.array items) (x.inside (.index i))
  | few {element : Pattern} {title : Option String} {min : Nat} {items : List Value}
      (h : items.length < min) :
      Violates (.list element title min) (.array items) (.root (.few min items.length))
  | item {element : Pattern} {title : Option String} {min i : Nat} {items : List Value} {w : Value}
      {x : Violation} (hlength : min ≤ items.length) (hw : items[i]? = some w)
      (h : Violates element w x) :
      Violates (.list element title min) (.array items) (x.inside (.index i))

/-- The pattern is an object pattern whose keys have distinct base names, an array without a
repetition, a list or a scalar. -/
def Structural : Pattern → Prop
  | .scalar _ => True
  | .object _ keys _ => ((declaredKeys keys).map fun m => Key.base m.1).Nodup
  | .array elements => ∀ p ∈ elements, p.isRest = false
  | .list _ _ _ => True
  | _ => False

end Pattern

open MatchResult (Tells)
open Pattern (Violates)

/-- The engine has a result, and it tells of what is wrong with the value. -/
def Engine.Reports (e : Engine) (p : Pattern) (v : Value) (r : Resolver) : Prop :=
  ∃ m, e.check p v r = some m ∧ Tells r.messages [m] (p.Violates v)

variable {e : Engine} {r : Resolver} {v : Value} {words : KeyMessages}

/-! ## Scalars -/

/-- The result is a success, or a failure that is a single message. -/
def MatchResult.IsPlain (m : MatchResult) : Prop :=
  m = .success ∨ ∃ message, m = .fail message

/-- Success has no parts to report. -/
theorem MatchResult.isPlain_success : success.IsPlain := .inl rfl

/-- A mismatch reports itself alone. -/
theorem MatchResult.isPlain_mismatch (expected actual : String) :
    (mismatch expected actual).IsPlain := .inr ⟨_, rfl⟩

open MatchResult (isPlain_success isPlain_mismatch)

/-- Checking a range of numbers gives at most one failure, without breadcrumbs. -/
theorem NumberRange.isPlain_check (range : NumberRange) (d : Decimal) :
    (range.check d).IsPlain := by
  unfold check
  dsimp only
  split
  · exact isPlain_mismatch _ _
  · split
    · exact isPlain_mismatch _ _
    · split
      · exact isPlain_mismatch _ _
      · exact isPlain_success

/-- Checking a range of lengths gives at most one failure, without breadcrumbs. -/
theorem LengthRange.isPlain_check (range : LengthRange) (s : String) :
    (range.check s).IsPlain := by
  unfold check
  dsimp only
  split
  · exact isPlain_mismatch _ _
  · split
    · exact isPlain_mismatch _ _
    · exact isPlain_success

namespace Scalar

/-- Checking a scalar gives at most one failure, without breadcrumbs. -/
theorem isPlain_check (kind : Scalar) (v : Value) : (kind.check v).IsPlain := by
  unfold check
  split
  · exact NumberRange.isPlain_check _ _
  · exact isPlain_success
  · exact LengthRange.isPlain_check _ _
  · exact isPlain_success
  · exact isPlain_success
  · split
    · exact isPlain_success
    · exact isPlain_mismatch _ _
  · split
    · split
      · exact isPlain_success
      · exact isPlain_mismatch _ _
    · exact isPlain_mismatch _ _
  · exact isPlain_mismatch _ _

/-- The check of a scalar tells its own violation and nothing else. -/
theorem tells_check (kind : Scalar) (v : Value) :
    Tells words [kind.check v] ((Pattern.scalar kind).Violates v) := by
  rcases kind.isPlain_check v with h | ⟨message, h⟩
  · rw [h]
    refine .success fun x hx => ?_
    cases hx with
    | scalar hne => exact hne h
    | shape hshape => exact hshape.elim
  · have hmessage : (Fault.scalar kind v).message words = message :=
      congrArg MatchResult.message h
    rw [h, ← hmessage]
    refine Tells.fail (f := .scalar kind v) (fun x => ⟨fun hx => ?_, ?_⟩) rfl
    · cases hx with
      | scalar => rfl
      | shape hshape => exact hshape.elim
    · rintro rfl
      refine .scalar fun hs => ?_
      cases h.symm.trans hs

end Scalar

/-- The message that a value is no object or no array tells of just that. -/
theorem Pattern.Misshaped.tells {p : Pattern} {name : String} (h : p.Misshaped v)
    (hname : name = p.typeName) :
    Tells words [.mismatch name v.display] (p.Violates v) := by
  subst hname
  refine Tells.fail (f := .shape p v) (fun x => ⟨fun hx => ?_, ?_⟩) rfl
  · cases hx with
    | shape => rfl
    | _ => exact h.elim
  · rintro rfl
    exact .shape h

namespace Engine

section
variable {layout : Layout} {keys : List (String × Pattern)} {title : Option String}
  {members : List (String × Value)}

/-! ## Objects -/

/-- Messages name an object pattern by its type. -/
theorem objectName_eq : objectName title = (Pattern.object layout keys title).typeName := by
  cases title <;> rfl

/-- A name without a mark is unexpected where the value has it and the closed object declares no key
for it. -/
theorem mem_unexpectedKeys {name : String} (hplain : Key.isOptional name = false) :
    name ∈ unexpectedKeys keys members ↔ Pattern.isOpen keys = false ∧
      name ∈ Fields.names members ∧ ∀ m ∈ Pattern.declaredKeys keys, Key.base m.1 ≠ name := by
  cases hopen : Pattern.isOpen keys with
  | true => simp [unexpectedKeys_of_isOpen hopen]
  | false =>
    have hkey : Pattern.keyNamed? keys name = none ↔ ∀ m ∈ keys, Key.base m.1 ≠ name := by
      rw [← not_iff_not, ← Ne, Pattern.keyNamed?_ne_none_iff]
      push Not
      refine exists_congr fun m => and_congr_right fun _ => or_iff_left_of_imp fun he => ?_
      rw [he, Key.base_of_mandatory hplain]
    simp only [unexpectedKeys, hopen, Pattern.declaredKeys_of_closed hopen, ← hkey, Fields.names,
      List.mem_filter, Option.isNone_iff_eq_none, if_false, true_and, Bool.false_eq_true]

/-- A name is missing where a required key has it and the value does not. -/
theorem mem_missingKeys {name : String} :
    name ∈ missingKeys keys members ↔ ∃ m ∈ Pattern.declaredKeys keys,
      Key.isOptional m.1 = false ∧ Key.base m.1 ∉ Fields.names members ∧ Key.base m.1 = name := by
  simp [missingKeys, ← Fields.has_iff_mem_names, and_assoc]

/-- Unexpected keys are reported in the order of the value. -/
theorem unexpectedKeys_sublist :
    (unexpectedKeys keys members).Sublist (Fields.names members) := by
  unfold unexpectedKeys
  split
  · exact List.nil_sublist _
  · exact List.filter_sublist

/-- The messages about keys that are not declared tell of these. -/
theorem tells_unexpectedKeys (keys : List (String × Pattern))
    (hmembers : (Fields.names members).Nodup)
    (hplain : ∀ name ∈ Fields.names members, Key.isOptional name = false) :
    Tells words ((unexpectedKeys keys members).map fun name =>
        (MatchResult.fail (words.unexpected name)).under name)
      fun x => ∃ name, Pattern.isOpen keys = false ∧ name ∈ Fields.names members ∧
        (∀ m ∈ Pattern.declaredKeys keys, Key.base m.1 ≠ name) ∧
          Violation.root (.undeclared name) = x := by
  have hnodup : (unexpectedKeys keys members).Nodup := hmembers.sublist unexpectedKeys_sublist
  refine (MatchResult.tells_keys hnodup .undeclared (fun _ => rfl) (fun _ _ => rfl) words).congr
    fun x => exists_congr fun name => ?_
  constructor
  · rintro ⟨hname, he⟩
    have hmandatory := hplain name (unexpectedKeys_sublist.mem hname)
    obtain ⟨hclosed, hmem, hkeys⟩ := (mem_unexpectedKeys hmandatory).1 hname
    exact ⟨hclosed, hmem, hkeys, he⟩
  · rintro ⟨hclosed, hmem, hkeys, he⟩
    exact ⟨(mem_unexpectedKeys (hplain name hmem)).2 ⟨hclosed, hmem, hkeys⟩, he⟩

variable (hbases : ((Pattern.declaredKeys keys).map fun m => Key.base m.1).Nodup)
include hbases

/-- The messages about missing keys tell of these. -/
theorem tells_missingKeys (members : List (String × Value)) :
    Tells words ((missingKeys keys members).map fun name =>
        (MatchResult.fail (words.missing name)).under name)
      fun x => ∃ m ∈ Pattern.declaredKeys keys, Key.isOptional m.1 = false ∧
        Key.base m.1 ∉ Fields.names members ∧ Violation.root (.missing (Key.base m.1)) = x := by
  have hnodup : (missingKeys keys members).Nodup :=
    hbases.sublist (List.filter_sublist.map _)
  refine (MatchResult.tells_keys hnodup .missing (fun _ => rfl) (fun _ _ => rfl) words).congr
    fun x => ?_
  simp only [mem_missingKeys]
  constructor
  · rintro ⟨_, ⟨m, hm, hmandatory, hnot, rfl⟩, he⟩
    exact ⟨m, hm, hmandatory, hnot, he⟩
  · rintro ⟨m, hm, hmandatory, hnot, he⟩
    exact ⟨_, ⟨m, hm, hmandatory, hnot, rfl⟩, he⟩

/-- No present key is compared twice. -/
theorem nodup_presentKeys (members : List (String × Value)) :
    ((presentKeys keys members).map (·.1)).Nodup := by
  have hsub := Fields.sublist_names_filterMap (Pattern.declaredKeys keys) (fun m => Key.base m.1)
    fun m => (Fields.get? members (Key.base m.1)).map fun v => (m.2, v)
  refine hbases.sublist ?_
  simpa [presentKeys, Function.comp_def] using hsub

/-- Where the engine reports on the values under the declared keys, there are results for all of
them, and they tell of what is wrong inside. -/
theorem exists_tells_values
    (h : ∀ m ∈ Pattern.declaredKeys keys, ∀ w, Fields.get? members (Key.base m.1) = some w →
      e.Reports m.2 w r) :
    ∃ values,
      traverse? (fun (name, p, v) => (e.check p v r).map (·.under name))
        (presentKeys keys members) = some values ∧
      Tells r.messages values fun x => ∃ m ∈ Pattern.declaredKeys keys, ∃ w,
        Fields.get? members (Key.base m.1) = some w ∧ ∃ y, m.2.Violates w y ∧
          y.inside (.key (Key.base m.1)) = x := by
  have hsteps : (presentKeys keys members).Pairwise fun a b => Step.key a.1 ≠ Step.key b.1 :=
    (List.pairwise_map.1 (nodup_presentKeys hbases members)).imp fun hne he =>
      hne (Step.key.inj he)
  have hparts : ∀ part ∈ presentKeys keys members, ∃ m,
      (fun (name, p, v) => (e.check p v r).map (·.under name)) part =
          some (m.under (Step.key part.1).crumb) ∧
        Tells r.messages [m] (part.2.1.Violates part.2.2) := by
    rintro ⟨name, p, w⟩ hpart
    obtain ⟨key, hmem, -, hw⟩ := mem_presentKeys.1 hpart
    obtain ⟨m, hm, htells⟩ : e.Reports p w r := h (key, p) hmem w hw
    exact ⟨m, by simp only [hm]; rfl, htells⟩
  obtain ⟨values, hvalues, htells⟩ := MatchResult.exists_tells_traverse? hsteps hparts
  refine ⟨values, hvalues, htells.congr fun x => ?_⟩
  constructor
  · rintro ⟨part, hpart, y, hy, he⟩
    obtain ⟨key, hm, hbase, hw⟩ := mem_presentKeys.1 hpart
    exact ⟨(key, part.2.1), hm, part.2.2, hw, y, hy, hbase.symm ▸ he⟩
  · rintro ⟨m, hm, w, hw, y, hy, he⟩
    exact ⟨(Key.base m.1, m.2, w), mem_presentKeys.2 ⟨m.1, hm, rfl, hw⟩, y, hy, he⟩

/-- The result for an object tells of what is wrong with its keys and inside its values. -/
theorem exists_tells_checkObject (hmembers : (Fields.names members).Nodup)
    (hplain : ∀ name ∈ Fields.names members, Key.isOptional name = false)
    (h : ∀ m ∈ Pattern.declaredKeys keys, ∀ w, Fields.get? members (Key.base m.1) = some w →
      e.Reports m.2 w r) :
    ∃ m, e.checkObject keys title (.object members) r = some m ∧
      Tells r.messages [m] ((Pattern.object layout keys title).Violates (.object members)) := by
  obtain ⟨values, hvalues, hinside⟩ := exists_tells_values hbases h
  refine ⟨_, ?_, ((((tells_unexpectedKeys keys hmembers hplain).append
    (tells_missingKeys hbases members) ?_).append hinside ?_).all).congr fun x => ?_⟩
  · show (traverse? _ _ >>= _) = _
    rw [hvalues]
    rfl
  · rintro _ _ ⟨a, -, -, -, rfl⟩ ⟨m, -, -, -, rfl⟩
    refine Violation.before_root nofun fun i hi j hj => ?_
    cases hi
    exact Nat.zero_le j
  · rintro _ _ (⟨a, -, -, -, rfl⟩ | ⟨m, -, -, -, rfl⟩) ⟨_, -, _, -, y, -, rfl⟩
    · exact Violation.before_inside_of_root _ _ y
    · exact Violation.before_inside_of_root _ _ y
  · constructor
    · rintro ((⟨name, hclosed, hname, hkeys, rfl⟩ | ⟨m, hm, hmandatory, hnot, rfl⟩) |
        ⟨m, hm, w, hw, y, hy, rfl⟩)
      · exact .undeclared hclosed hname hkeys
      · exact .missing hm hmandatory hnot
      · exact .member hm hw hy
    · intro hx
      cases hx with
      | shape hshape => exact hshape.elim
      | undeclared hclosed hname hkeys => exact .inl (.inl ⟨_, hclosed, hname, hkeys, rfl⟩)
      | missing hm hmandatory hnot => exact .inl (.inr ⟨_, hm, hmandatory, hnot, rfl⟩)
      | member hm hw hy => exact .inr ⟨_, hm, _, hw, _, hy, rfl⟩

end

/-! ## Arrays and lists -/

section
variable {elements : List Pattern} {items : List Value} {element : Pattern} {title : Option String}
  {min : Nat}

/-- The result for an array tells of a wrong length, or else of what is wrong inside its items. -/
theorem exists_tells_checkArray (hrest : ∀ p ∈ elements, p.isRest = false)
    (h : ∀ p ∈ elements, ∀ w ∈ items, e.Reports p w r) :
    ∃ m, e.checkArray elements (.array items) r = some m ∧
      Tells r.messages [m] ((Pattern.array elements).Violates (.array items)) := by
  by_cases hlength : items.length = elements.length
  · have hitems : ∀ a ∈ elements.zip items, ∃ m,
        (∀ i, (e.check a.1 a.2 r).map (·.under (indexCrumb i)) = some (m.under (indexCrumb i))) ∧
          Tells r.messages [m] (a.1.Violates a.2) := by
      rintro ⟨p, w⟩ ha
      obtain ⟨hp, hw⟩ := List.of_mem_zip ha
      obtain ⟨m, hm, htells⟩ := h p hp w hw
      exact ⟨m, fun i => congrArg (Option.map _) hm, htells⟩
    obtain ⟨head, hhead, htells⟩ := MatchResult.exists_tells_zipIdx hitems
    have hdone : Tells r.messages [.success] fun _ => False := .success fun _ => id
    refine ⟨_, ?_, ((htells.append hdone fun _ _ _ => False.elim).all).congr fun x => ?_⟩
    · simp only [checkArray, Pattern.splitRest_eq_self hrest, hlength, ne_eq, not_true, if_false]
      show (traverse? _ _ >>= _) = _
      rw [hhead]
      rfl
    · simp only [List.getElem?_zip_eq_some, or_false]
      constructor
      · rintro ⟨i, ⟨p, w⟩, ⟨hp, hw⟩, y, hy, rfl⟩
        exact .element hlength hp hw hy
      · intro hx
        cases hx with
        | shape hshape => exact hshape.elim
        | length hne => exact absurd hlength hne
        | element _ hp hw hy => exact ⟨_, (_, _), ⟨hp, hw⟩, _, hy, rfl⟩
  · refine ⟨.fail ((Fault.length elements.length items.length).message r.messages), ?_,
      Tells.fail (f := .length elements.length items.length) (fun x => ⟨fun hx => ?_, ?_⟩) rfl⟩
    · simp only [checkArray, Pattern.splitRest_eq_self hrest, hlength, ne_eq, not_false_iff,
        if_true]
      rfl
    · cases hx with
      | shape hshape => exact hshape.elim
      | length => rfl
      | element hlength' => exact absurd hlength' hlength
    · rintro rfl
      exact .length hlength

/-- The result for a list tells that it is too short, or else of what is wrong inside its items. -/
theorem exists_tells_checkList (name : String) (h : ∀ w ∈ items, e.Reports element w r) :
    ∃ m, e.checkList element name min (.array items) r = some m ∧
      Tells r.messages [m] ((Pattern.list element title min).Violates (.array items)) := by
  by_cases hlength : items.length < min
  · refine ⟨.fail ((Fault.few min items.length).message r.messages), if_pos hlength,
      Tells.fail (f := .few min items.length) (fun x => ⟨fun hx => ?_, ?_⟩) rfl⟩
    · cases hx with
      | shape hshape => exact hshape.elim
      | few => rfl
      | item hle => exact absurd hlength (Nat.not_lt.2 hle)
    · rintro rfl
      exact .few hlength
  · have hitems : ∀ w ∈ items, ∃ m,
        (∀ i, (e.check element w r).map (·.under (indexCrumb (i + 0))) =
          some (m.under (indexCrumb i))) ∧ Tells r.messages [m] (element.Violates w) := by
      intro w hw
      obtain ⟨m, hm, htells⟩ := h w hw
      exact ⟨m, fun i => congrArg (Option.map _) hm, htells⟩
    obtain ⟨ms, hms, htells⟩ := MatchResult.exists_tells_zipIdx hitems
    refine ⟨_, ?_, htells.all.congr fun x => ?_⟩
    · rw [checkList, if_neg hlength]
      show (traverse? _ _ >>= _) = _
      rw [hms]
      rfl
    · constructor
      · rintro ⟨i, w, hw, y, hy, rfl⟩
        exact .item (Nat.not_lt.1 hlength) hw hy
      · intro hx
        cases hx with
        | shape hshape => exact hshape.elim
        | few hshort => exact absurd hshort hlength
        | item _ hw hy => exact ⟨_, _, hw, _, hy, rfl⟩

end

end Engine

namespace Pattern

variable {p : Pattern} {n : Nat}

/-- A match of a structural pattern on a budget that its weight does not exceed tells of what is
wrong with the value. -/
theorem reports_ofBudget (hmock : r.config.mockMode = false) (hp : p.Everywhere Structural)
    (hn : p.weight ≤ n) (hv : v.WithKeys fun name => Key.isOptional name = false) :
    (Engine.ofBudget n).Reports p v r := by
  induction hp generalizing n v with
  | @intro p here _ ih =>
    -- a part weighs less than the whole, so what is left of the budget after a step is enough
    obtain ⟨n, rfl, hinner⟩ := exists_succ_of_weight_le hn
    rw [Engine.Reports, check_succ hmock]
    cases p with
    | scalar kind => exact ⟨_, rfl, kind.tells_check v⟩
    | object layout keys title =>
      cases hv with
      | @object members hordered hnames hvalues =>
        refine Engine.exists_tells_checkObject here hordered.nodup hnames fun m hm w hw => ?_
        have hpart : m.2 ∈ (object layout keys title).parts := List.mem_map_of_mem hm
        have hmem : m ∈ keys := (mem_declaredKeys.1 hm).1
        exact ih m.2 hpart (hinner m.2 (List.mem_map_of_mem hmem))
          (hvalues _ (Fields.mem_of_get? hw))
      | _ => exact ⟨_, rfl, Misshaped.tells trivial Engine.objectName_eq⟩
    | array elements =>
      cases hv with
      | @array items hitems =>
        refine Engine.exists_tells_checkArray here fun p hp w hw => ?_
        have hpart : p ∈ (array elements).parts := by
          rw [parts, splitRest_eq_self here]
          exact List.mem_append_left _ hp
        exact ih p hpart (hinner p hp) (hitems w hw)
      | _ => exact ⟨_, rfl, Misshaped.tells trivial rfl⟩
    | list element title min =>
      cases hv with
      | @array items hitems =>
        refine Engine.exists_tells_checkList (list element title min).typeName fun w hw => ?_
        have hpart : element ∈ (list element title min).parts := List.mem_singleton_self _
        exact ih element hpart (hinner element (List.mem_singleton_self _)) (hitems w hw)
      | _ => exact ⟨_, rfl, Misshaped.tells trivial rfl⟩
    | _ => exact here.elim

/-- The report of a match of a structural pattern with a value without marked keys has one line for
each thing that is wrong with the value, with the way from the root as its path, and no other line.
At every object the keys that are not declared come first, then the missing ones, then all that is
wrong inside the values. -/
theorem check_lists_violations (hmock : r.config.mockMode = false) (hp : p.Everywhere Structural)
    (hv : v.WithKeys fun name => name.toList.getLast? ≠ some '?') :
    ∃ (m : MatchResult) (xs : List Violation), p.check v r = some m ∧
      m.lines = xs.map (·.line r.messages) ∧ xs.Nodup ∧
      (∀ x, x ∈ xs ↔ p.Violates v x) ∧ xs.Pairwise Violation.InOrder := by
  have hplain : v.WithKeys fun name => Key.isOptional name = false :=
    hv.imp fun name hname => Bool.eq_false_iff.2 fun ho => hname (Key.isOptional_iff.1 ho)
  have hbudget : p.weight ≤ Engine.budgetFor (p.weight + v.weight + r.weight) := by
    have htwice := Engine.two_mul_le_budgetFor (p.weight + v.weight + r.weight)
    omega
  obtain ⟨m, hm, xs, hlines, hbefore, hmem⟩ := reports_ofBudget hmock hp hbudget hplain
  rw [List.flatMap_singleton] at hlines
  exact ⟨m, xs, hm, hlines, hbefore.imp fun h => h.1, hmem, hbefore.imp fun h => h.2⟩

/-- A note with an identifier and perhaps a text and a number. -/
def note : Pattern :=
  .object .json [("id", .number), ("pair?", .array [.string, .number])] none

/-- A note without identifier, with a key too many and a boolean in place of the number. -/
def wrongNote : Value :=
  .object [("extra", .null), ("pair", .array [.string "a", .boolean true])]

/-- All three are in the report. -/
theorem note_check_wrongNote :
    ∃ m, note.check wrongNote Resolver.empty = some m ∧
      ⟨"extra", "Key named extra was unexpected"⟩ ∈ m.lines ∧
      ⟨"id", "Expected key named id was missing"⟩ ∈ m.lines ∧
      ⟨"pair[1]", "Expected number, actual was true"⟩ ∈ m.lines := by
  have hscalar (kind : Scalar) : (Pattern.scalar kind).Everywhere Structural := .leaf trivial rfl
  have hpair : (array [.string, .number]).Everywhere Structural := by
    refine .intro (show ∀ p ∈ [string, number], p.isRest = false by decide) fun q hq => ?_
    have hq : q ∈ [.string, .number] := hq
    rcases List.mem_pair.1 hq with rfl | rfl
    · exact hscalar _
    · exact hscalar _
  have hnote : note.Everywhere Structural := by
    have hbases : ["id", "pair"].Nodup := by decide
    refine .intro hbases fun q hq => ?_
    have hq : q ∈ [.number, .array [.string, .number]] := hq
    rcases List.mem_pair.1 hq with rfl | rfl
    · exact hscalar _
    · exact hpair
  have hwrong : wrongNote.WithKeys fun name => name.toList.getLast? ≠ some '?' := by
    refine .object (by decide) (by decide) fun m hm => ?_
    rcases List.mem_pair.1 hm with rfl | rfl
    · exact .null
    · refine .array fun w hw => ?_
      rcases List.mem_pair.1 hw with rfl | rfl
      · exact .string _
      · exact .boolean _
  obtain ⟨m, xs, hm, hlines, -, hmem, -⟩ := check_lists_violations (r := .empty) rfl hnote hwrong
  have hline {x : Violation} (hx : note.Violates wrongNote x) :
      x.line .contract ∈ m.lines := by
    rw [hlines]
    exact List.mem_map_of_mem ((hmem x).2 hx)
  refine ⟨m, hm, ?_, ?_, ?_⟩
  · exact hline (.undeclared (by decide) (by decide) (by decide))
  · exact hline (.missing (m := ("id", .number))
      (mem_declaredKeys.2 ⟨List.mem_cons_self, by decide⟩) (by decide) (by decide))
  · exact hline (.member (m := ("pair?", .array [.string, .number]))
      (mem_declaredKeys.2 ⟨List.mem_cons_of_mem _ List.mem_cons_self, by decide⟩) rfl
      (.element (i := 1) rfl rfl rfl (.scalar nofun)))

end Pattern

end DataContract
