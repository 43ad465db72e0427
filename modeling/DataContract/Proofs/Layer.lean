import DataContract.Matching
import DataContract.Proofs.Keys
import DataContract.Proofs.Verdict

/-!
# One layer of matching

`Pattern.Fits` says what it takes for a value to have the shape of a pattern, when it is known which
parts the patterns of the parts take. A match that succeeds has found this of the parts it has
matched (`Engine.fits_of_succeeds`), and a match does not fail where no part does
(`Engine.not_fails_of_fits`). Every induction over matching opens a pattern by these two, and never
by the functions that match.

Of XML elements nothing is said.
-/

namespace DataContract

namespace Pattern

/-- The values under declared keys are taken, mandatory keys are there, and so is nothing that the
pattern does not admit. -/
structure FitsObject (keys : List (String × Pattern)) (members : List (String × Value))
    (ok : Pattern → Value → Prop) : Prop where
  declared : Engine.unexpectedKeys keys members = []
  present : Engine.missingKeys keys members = []
  values : ∀ part ∈ Engine.presentKeys keys members, ok part.2.1 part.2.2

/-- The pattern for the element at an index: one of the fixed ones, then that of the repetition. -/
def place? (elements : List Pattern) (i : Nat) : Option Pattern :=
  (splitRest elements).1[i]?.or ((splitRest elements).2.map (·.1))

/-- There are as many items as the pattern has elements, or enough of them if it ends in a
repetition. -/
def FitsLength (elements : List Pattern) (length : Nat) : Prop :=
  match (splitRest elements).2 with
  | none => length = (splitRest elements).1.length
  | some (_, min) => (splitRest elements).1.length + min ≤ length

/-- The number of items is right and each is taken at its place. -/
structure FitsArray (elements : List Pattern) (items : List Value) (ok : Pattern → Value → Prop) :
    Prop where
  length : FitsLength elements items.length
  items : ∀ i p v, place? elements i = some p → items[i]? = some v → ok p v

/-- Some member takes the value; a union of nothing but null takes everything. -/
def FitsUnion (members : List Pattern) (v : Value) (ok : Pattern → Value → Prop) : Prop :=
  (∃ p ∈ members, ok p v) ∨ nonNull members = []

/-- The pattern that a name stands for takes the value; a name that stands for nothing because of a
circle takes everything. -/
def FitsReference (r : Resolver) (name : String) (v : Value) (ok : Pattern → Value → Prop) : Prop :=
  match r.resolve name with
  | .ok p => ok p v
  | .error (.recursion _) => True
  | .error _ => False

/-- The value has the shape of the pattern, given which parts are taken and which texts read. -/
def Fits (r : Resolver) (ok : Pattern → Value → Prop) (reads : Pattern → String → Prop) :
    Pattern → Value → Prop
  | .scalar s, v => s.check v = .success
  | .anything, _ => True
  | .object _ keys _, v => ∃ members, v = .object members ∧ FitsObject keys members ok
  | .array elements, v => ∃ items, v = .array items ∧ FitsArray elements items ok
  | .list element _ min, v =>
    ∃ items, v = .array items ∧ min ≤ items.length ∧ ∀ item ∈ items, ok element item
  | .rest element min, v =>
    ∃ items, v = .array items ∧ min ≤ items.length ∧ ∀ item ∈ items, ok element item
  | .dictionary key value, v =>
    ∃ members, v = .object members ∧ ∀ m ∈ members, reads key m.1 ∧ ok value m.2
  | .xml _, _ => True
  | .union members _ _, v => FitsUnion members v ok
  | .enumeration shape, v => FitsUnion shape.members v ok
  | .exact value, v => value.equal v = true
  | .reference name, v => FitsReference r name v ok
  | .lookup _ type, v => ok type v
  | .inString type, v => ∃ text, v = .string text ∧ reads type text
  | .csv item, v => ∃ text, v = .string text ∧ ∀ t ∈ Engine.csvItems text, reads item t

/-! ## Elements of arrays -/

/-- What stands before the repetition is an element. -/
theorem mem_of_mem_splitRest {elements : List Pattern} {p : Pattern}
    (h : p ∈ (splitRest elements).1) : p ∈ elements := by
  fun_induction splitRest elements with
  | case1 => cases h
  | case2 => cases h
  | case3 q ps hne ih =>
    rcases List.mem_cons.1 h with rfl | h
    · exact List.mem_cons_self
    · exact List.mem_cons_of_mem _ (ih h)

/-- The repetition at the end is an element. -/
theorem rest_mem_of_splitRest {elements : List Pattern} {p : Pattern} {min : Nat}
    (h : (splitRest elements).2 = some (p, min)) : .rest p min ∈ elements := by
  fun_induction splitRest elements with
  | case1 => cases h
  | case2 =>
    cases h
    exact List.mem_cons_self
  | case3 q ps hne ih => exact List.mem_cons_of_mem _ (ih h)

/-- Every element is a fixed one or the repetition at the end. -/
theorem mem_splitRest {elements : List Pattern} {p : Pattern} (h : p ∈ elements) :
    p ∈ (splitRest elements).1 ∨
      ∃ q min, p = .rest q min ∧ (splitRest elements).2 = some (q, min) := by
  fun_induction splitRest elements with
  | case1 => cases h
  | case2 q min => exact .inr ⟨q, min, List.mem_singleton.1 h, rfl⟩
  | case3 q ps hne ih =>
    rcases List.mem_cons.1 h with rfl | h
    · exact .inl List.mem_cons_self
    · exact (ih h).imp_left (List.mem_cons_of_mem _)

/-- The pattern is a repetition. -/
def isRest : Pattern → Bool
  | .rest _ _ => true
  | _ => false

/-- A repetition is only the last element. -/
def RestLast : List Pattern → Prop
  | [] => True
  | .rest _ _ :: elements => elements = []
  | _ :: elements => RestLast elements

/-- An element that is no repetition stands before the repetition at the end. -/
theorem splitRest_cons {p : Pattern} (hp : p.isRest = false) (elements : List Pattern) :
    splitRest (p :: elements) = (p :: (splitRest elements).1, (splitRest elements).2) := by
  cases p with
  | rest => cases hp
  | _ => rfl

/-- Without repetitions all elements stand at their places. -/
theorem splitRest_eq_self {elements : List Pattern} (h : ∀ p ∈ elements, p.isRest = false) :
    splitRest elements = (elements, none) := by
  induction elements with
  | nil => rfl
  | cons p elements ih =>
    obtain ⟨hp, helements⟩ := List.forall_mem_cons.1 h
    rw [splitRest_cons hp, ih helements]

/-- An element that is no repetition does not come behind one. -/
theorem restLast_cons {p : Pattern} (hp : p.isRest = false) {elements : List Pattern} :
    RestLast (p :: elements) ↔ RestLast elements := by
  cases p with
  | rest => cases hp
  | _ => rfl

/-- In an array of the right length every item has a place. -/
theorem exists_place {elements : List Pattern} {length i : Nat} (h : FitsLength elements length)
    (hi : i < length) : ∃ p, place? elements i = some p := by
  unfold FitsLength at h
  unfold place?
  cases hr : (splitRest elements).2 with
  | none =>
    rw [hr] at h
    have hlt : i < (splitRest elements).1.length := by omega
    exact ⟨_, by rw [List.getElem?_eq_getElem hlt]; rfl⟩
  | some last => cases (splitRest elements).1[i]? <;> simp

/-- Without a repetition there is one item for each element. -/
theorem fitsArray_iff_forall₂ {elements : List Pattern} {items : List Value}
    {ok : Pattern → Value → Prop} (h : ∀ p ∈ elements, p.isRest = false) :
    FitsArray elements items ok ↔ List.Forall₂ ok elements items := by
  have hplace (i : Nat) : place? elements i = elements[i]? := by
    rw [place?, splitRest_eq_self h]
    exact Option.or_none
  have hlength : FitsLength elements items.length ↔ elements.length = items.length := by
    rw [FitsLength, splitRest_eq_self h]
    exact eq_comm
  rw [List.forall₂_iff_get]
  constructor
  · rintro ⟨hlen, hitems⟩
    refine ⟨hlength.1 hlen, fun i hi hi' => hitems i _ _ ?_ (List.getElem?_eq_getElem hi')⟩
    rw [hplace]
    exact List.getElem?_eq_getElem hi
  · rintro ⟨hlen, hitems⟩
    refine ⟨hlength.2 hlen, fun i p v hp hv => ?_⟩
    rw [hplace] at hp
    obtain ⟨hi, rfl⟩ := List.getElem?_eq_some_iff.1 hp
    obtain ⟨hi', rfl⟩ := List.getElem?_eq_some_iff.1 hv
    exact hitems i hi hi'

/-! ## More parts taken -/

section
variable {ok ok' : Pattern → Value → Prop} {reads reads' : Pattern → String → Prop}

/-- An object fits under weaker conditions on the values. -/
theorem FitsObject.imp {keys : List (String × Pattern)} {members : List (String × Value)}
    (h : FitsObject keys members ok) (hok : ∀ p v, ok p v → ok' p v) :
    FitsObject keys members ok' :=
  ⟨h.declared, h.present, fun part hp => hok _ _ (h.values part hp)⟩

/-- An array fits under weaker conditions on the items. -/
theorem FitsArray.imp {elements : List Pattern} {items : List Value}
    (h : FitsArray elements items ok) (hok : ∀ p v, ok p v → ok' p v) :
    FitsArray elements items ok' :=
  ⟨h.length, fun i p v hp hv => hok _ _ (h.items i p v hp hv)⟩

/-- A union fits under weaker conditions on its members. -/
theorem FitsUnion.imp {members : List Pattern} {v : Value} (h : FitsUnion members v ok)
    (hok : ∀ p v, ok p v → ok' p v) : FitsUnion members v ok' :=
  h.imp_left fun ⟨p, hp, ho⟩ => ⟨p, hp, hok _ _ ho⟩

/-- A reference fits under weaker conditions on what it stands for. -/
theorem FitsReference.imp {r : Resolver} {name : String} {v : Value}
    (h : FitsReference r name v ok) (hok : ∀ p v, ok p v → ok' p v) :
    FitsReference r name v ok' := by
  unfold FitsReference at h ⊢
  cases hr : r.resolve name with
  | ok p => exact hok p v (by simpa only [hr] using h)
  | error err =>
    rw [hr] at h
    cases err <;> exact h

/-- A value keeps the shape of a pattern if more parts are taken and more texts read. -/
theorem Fits.imp {r : Resolver} {p : Pattern} {v : Value} (h : p.Fits r ok reads v)
    (hok : ∀ p v, ok p v → ok' p v) (hreads : ∀ p t, reads p t → reads' p t) :
    p.Fits r ok' reads' v := by
  cases p with
  | scalar | anything | xml | exact => exact h
  | object =>
    obtain ⟨members, hv, ho⟩ := h
    exact ⟨members, hv, ho.imp hok⟩
  | array =>
    obtain ⟨items, hv, ha⟩ := h
    exact ⟨items, hv, ha.imp hok⟩
  | list | rest =>
    obtain ⟨items, hv, hlen, hi⟩ := h
    exact ⟨items, hv, hlen, fun item hm => hok _ _ (hi item hm)⟩
  | dictionary =>
    obtain ⟨members, hv, hm⟩ := h
    exact ⟨members, hv, fun m hmem => (hm m hmem).imp (hreads _ _) (hok _ _)⟩
  | union | enumeration => exact FitsUnion.imp h hok
  | reference => exact FitsReference.imp h hok
  | lookup => exact hok _ _ h
  | inString =>
    obtain ⟨text, hv, ht⟩ := h
    exact ⟨text, hv, hreads _ _ ht⟩
  | csv =>
    obtain ⟨text, hv, ht⟩ := h
    exact ⟨text, hv, fun t hm => hreads _ _ (ht t hm)⟩

end

end Pattern

namespace Engine

open Pattern (FitsObject FitsArray FitsUnion)

/-- The pattern reads the text as some value. -/
def Reads (e : Engine) (r : Resolver) (p : Pattern) (text : String) : Prop :=
  ∃ v, e.parse p text r = .ok v

/-- The engine has found that the pattern cannot read the text. -/
def Refuses (e : Engine) (r : Resolver) (p : Pattern) (text : String) : Prop :=
  ∃ err, e.parse p text r = .error err

variable {e : Engine} {r : Resolver} {p : Pattern} {v : Value}

/-! ## Keys -/

section
variable {keys : List (String × Pattern)} {members : List (String × Value)} {name : String}

/-- An open object has no unexpected keys. -/
theorem unexpectedKeys_of_isOpen (h : Pattern.isOpen keys = true) :
    unexpectedKeys keys members = [] := by
  rw [unexpectedKeys, if_pos h]

/-- A closed pattern that finds no undeclared key has a declared key for every one there is. -/
theorem keyNamed?_of_unexpectedKeys (hc : Pattern.isOpen keys = false)
    (h : unexpectedKeys keys members = []) (hn : name ∈ Fields.names members) :
    ∃ key p, Pattern.keyNamed? keys name = some (key, p) := by
  rw [unexpectedKeys, hc, if_neg Bool.false_ne_true, List.filter_eq_nil_iff] at h
  cases hk : Pattern.keyNamed? keys name with
  | none => exact absurd (by rw [hk]; rfl) (h name hn)
  | some found => exact ⟨found.1, found.2, rfl⟩

/-- Where every name is declared none is unexpected. -/
theorem unexpectedKeys_eq_nil
    (h : ∀ name ∈ Fields.names members, Pattern.keyNamed? keys name ≠ none) :
    unexpectedKeys keys members = [] := by
  unfold unexpectedKeys
  split
  · rfl
  · refine List.filter_eq_nil_iff.2 fun name hn => ?_
    simpa using h name hn

/-- No mandatory key is missing exactly when each is there under its base name. -/
theorem missingKeys_eq_nil_iff :
    missingKeys keys members = [] ↔ ∀ key p, (key, p) ∈ Pattern.declaredKeys keys →
      Key.isOptional key = false → Fields.has members (Key.base key) = true := by
  rw [missingKeys, List.map_eq_nil_iff, List.filter_eq_nil_iff]
  constructor
  · intro h key p hm hk
    simpa [hk] using h (key, p) hm
  · rintro h ⟨key, p⟩ hm
    cases hk : Key.isOptional key with
    | true => simp [hk]
    | false => simp [hk, h key p hm hk]

/-- The values under declared keys are those that stand under their base names. -/
theorem mem_presentKeys {part : String × Pattern × Value} :
    part ∈ presentKeys keys members ↔ ∃ key, (key, part.2.1) ∈ Pattern.declaredKeys keys ∧
      Key.base key = part.1 ∧ Fields.get? members (Key.base key) = some part.2.2 := by
  obtain ⟨name, p, v⟩ := part
  simp only [presentKeys, List.mem_filterMap, Option.map_eq_some_iff, Prod.mk.injEq]
  constructor
  · rintro ⟨⟨key, q⟩, hm, w, hg, rfl, rfl, rfl⟩
    exact ⟨key, hm, rfl, hg⟩
  · rintro ⟨key, hm, rfl, hg⟩
    exact ⟨(key, p), hm, v, hg, rfl, rfl, rfl⟩

end

/-! ## Structures -/

/-- An accepted object fits the keys with accepted values. -/
theorem succeeds_checkObject {keys : List (String × Pattern)} {title : Option String}
    (h : Succeeds (e.checkObject keys title v r)) :
    ∃ members, v = .object members ∧
      FitsObject keys members fun p v => Succeeds (e.check p v r) := by
  cases v with
  | object members =>
    obtain ⟨values, hvalues, hall⟩ := succeeds_bind.1 h
    have hall : (MatchResult.all _).isSuccess = true := succeeds_some.1 hall
    simp only [MatchResult.isSuccess_all, List.all_append, Bool.and_eq_true, List.all_map,
      List.all_eq_true] at hall
    obtain ⟨⟨hu, hm⟩, hv⟩ := hall
    refine ⟨members, rfl, ?_, ?_, fun part hp => ?_⟩
    · exact List.eq_nil_iff_forall_not_mem.2 fun name hn => by simpa using hu name hn
    · exact List.eq_nil_iff_forall_not_mem.2 fun name hn => by simpa using hm name hn
    · have := (all_isSuccess_iff hvalues).1 (List.all_eq_true.2 hv) part hp
      exact succeeds_map_under.1 this
  | _ => exact absurd (succeeds_some.1 h) (by simp)

/-- An object that fits the keys with values that are not rejected is not rejected. -/
theorem not_fails_checkObject {keys : List (String × Pattern)} (title : Option String)
    {members : List (String × Value)}
    (h : FitsObject keys members fun p v => ¬ Fails (e.check p v r)) :
    ¬ Fails (e.checkObject keys title (.object members) r) := by
  intro hf
  obtain ⟨values, hvalues, hall⟩ := fails_bind.1 hf
  rw [h.declared, h.present] at hall
  obtain ⟨part, hp, hfail⟩ := exists_fails hvalues (by simpa using fails_some.1 hall)
  exact h.values part hp (fails_map_under.1 hfail)

/-- Where a repetition succeeds each item is accepted. -/
theorem succeeds_checkItems {items : List Value} {start : Nat}
    (h : Succeeds (e.checkItems p items start r)) :
    ∀ item ∈ items, Succeeds (e.check p item r) := by
  intro item hi
  obtain ⟨i, hlt, rfl⟩ := List.mem_iff_getElem.1 hi
  have hm : (items[i], i) ∈ items.zipIdx := by
    rw [List.mem_zipIdx_iff_getElem?]
    exact List.getElem?_eq_getElem hlt
  exact succeeds_map_under.1 (succeeds_all_traverse h _ hm)

/-- Where no item is rejected a repetition does not fail. -/
theorem not_fails_checkItems {items : List Value} {start : Nat}
    (h : ∀ item ∈ items, ¬ Fails (e.check p item r)) : ¬ Fails (e.checkItems p items start r) := by
  intro hf
  obtain ⟨⟨item, i⟩, hm, hfail⟩ := fails_all_traverse hf
  exact h item (List.fst_mem_of_mem_zipIdx hm) (fails_map_under.1 hfail)

/-- An element and an item are matched exactly if they stand at the same index. -/
theorem mem_zip_zipIdx {elements : List Pattern} {items : List Value} {i : Nat} :
    ((p, v), i) ∈ (elements.zip items).zipIdx ↔ elements[i]? = some p ∧ items[i]? = some v := by
  rw [List.mem_zipIdx_iff_getElem?, List.getElem?_zip_eq_some]

/-- The results for the elements are successes exactly when each item is taken at its place. -/
theorem all_checkElements_iff {elements : List Pattern} {items : List Value}
    {head : List MatchResult} (h : e.checkElements elements items r = some head) :
    head.all MatchResult.isSuccess = true ↔
      ∀ (i : Nat) p v, elements[i]? = some p → items[i]? = some v → Succeeds (e.check p v r) := by
  rw [all_isSuccess_iff h]
  constructor
  · intro hall i p v hp hv
    exact succeeds_map_under.1 (hall _ (mem_zip_zipIdx.2 ⟨hp, hv⟩))
  · rintro hall ⟨⟨p, v⟩, i⟩ hm
    obtain ⟨hp, hv⟩ := mem_zip_zipIdx.1 hm
    exact succeeds_map_under.2 (hall i p v hp hv)

/-- If not all results for the elements are successes, an item fails at its place. -/
theorem exists_fails_checkElements {elements : List Pattern} {items : List Value}
    {head : List MatchResult} (h : e.checkElements elements items r = some head)
    (hall : head.all MatchResult.isSuccess = false) :
    ∃ (i : Nat) (p : Pattern) (v : Value),
      elements[i]? = some p ∧ items[i]? = some v ∧ Fails (e.check p v r) := by
  obtain ⟨⟨⟨p, v⟩, i⟩, hm, hf⟩ := exists_fails h hall
  obtain ⟨hp, hv⟩ := mem_zip_zipIdx.1 hm
  exact ⟨i, p, v, hp, hv, fails_map_under.1 hf⟩

/-- An item at or behind a place is among those from there on. -/
theorem mem_drop {items : List Value} {n i : Nat} (hle : n ≤ i) (h : items[i]? = some v) :
    v ∈ items.drop n := by
  refine List.mem_of_getElem? (i := i - n) ?_
  rw [List.getElem?_drop, Nat.add_sub_cancel' hle]
  exact h

/-- The items from a place on stand at or behind it. -/
theorem exists_of_mem_drop {items : List Value} {n : Nat} (h : v ∈ items.drop n) :
    ∃ i, n ≤ i ∧ items[i]? = some v := by
  obtain ⟨i, hi⟩ := List.getElem?_of_mem h
  rw [List.getElem?_drop] at hi
  exact ⟨n + i, Nat.le_add_right n i, hi⟩

/-- An accepted array fits the elements with accepted items. -/
theorem succeeds_checkArray {elements : List Pattern} (h : Succeeds (e.checkArray elements v r)) :
    ∃ items, v = .array items ∧
      FitsArray elements items fun p v => Succeeds (e.check p v r) := by
  cases v with
  | array items =>
    refine ⟨items, rfl, ?_⟩
    unfold checkArray at h
    cases hs : Pattern.splitRest elements with
    | mk fixed rest =>
      cases rest with
      | none =>
        simp only [hs] at h
        split at h
        · exact absurd (succeeds_some.1 h) (by simp)
        · next hlen =>
          obtain ⟨head, hhead, hall⟩ := succeeds_bind.1 h
          have hall := (all_checkElements_iff hhead).1 (by simpa using succeeds_some.1 hall)
          refine ⟨by simpa [Pattern.FitsLength, hs] using hlen, fun i p v hp hv => ?_⟩
          exact hall i p v (by simpa [Pattern.place?, hs] using hp) hv
      | some last =>
        obtain ⟨q, min⟩ := last
        simp only [hs] at h
        split at h
        · exact absurd (succeeds_some.1 h) (by simp)
        · next hlen =>
          obtain ⟨head, hhead, h⟩ := succeeds_bind.1 h
          obtain ⟨tail, htail, hall⟩ := succeeds_bind.1 h
          have hall : (MatchResult.all _).isSuccess = true := succeeds_some.1 hall
          simp only [MatchResult.isSuccess_all, List.all_append, Bool.and_eq_true, List.all_cons,
            List.all_nil, and_true] at hall
          refine ⟨by simpa [Pattern.FitsLength, hs] using hlen, fun i p v hp hv => ?_⟩
          simp only [Pattern.place?, hs, Option.or_eq_some_iff, Option.map_some] at hp
          rcases hp with hp | ⟨hnone, hp⟩
          · exact (all_checkElements_iff hhead).1 hall.1 i p v hp hv
          · cases hp
            have hle : fixed.length ≤ i := List.getElem?_eq_none_iff.1 hnone
            exact succeeds_checkItems (htail ▸ succeeds_some.2 hall.2) v (mem_drop hle hv)
  | _ => exact absurd (succeeds_some.1 h) (by simp)

/-- An array that fits the elements with items that are not rejected is not rejected. -/
theorem not_fails_checkArray {elements : List Pattern} {items : List Value}
    (h : FitsArray elements items fun p v => ¬ Fails (e.check p v r)) :
    ¬ Fails (e.checkArray elements (.array items) r) := by
  intro hf
  obtain ⟨hlen, hitems⟩ := h
  have hfixed {fixed : List Pattern} {head : List MatchResult}
      (hs : (Pattern.splitRest elements).1 = fixed)
      (hhead : e.checkElements fixed items r = some head) :
      head.all MatchResult.isSuccess = true := by
    by_contra hall
    obtain ⟨i, p, v, hp, hv, hfail⟩ :=
      exists_fails_checkElements hhead (Bool.eq_false_iff.2 hall)
    refine hitems i p v ?_ hv hfail
    simp [Pattern.place?, hs, hp]
  unfold checkArray at hf
  cases hs : Pattern.splitRest elements with
  | mk fixed rest =>
    cases rest with
    | none =>
      simp only [hs] at hf
      rw [if_neg (by simpa [Pattern.FitsLength, hs] using hlen)] at hf
      obtain ⟨head, hhead, hall⟩ := fails_bind.1 hf
      have hhead := hfixed (by rw [hs]) hhead
      exact (Succeeds.not_fails (succeeds_some.2 (by simpa using hhead))) hall
    | some last =>
      obtain ⟨q, min⟩ := last
      simp only [hs] at hf
      rw [if_neg (by simpa [Pattern.FitsLength, hs] using hlen)] at hf
      obtain ⟨head, hhead, hf⟩ := fails_bind.1 hf
      obtain ⟨tail, htail, hall⟩ := fails_bind.1 hf
      have hhead := hfixed (by rw [hs]) hhead
      have hall : (MatchResult.all _).isSuccess = false := fails_some.1 hall
      simp only [MatchResult.isSuccess_all, List.all_append, hhead, List.all_cons, List.all_nil,
        Bool.true_and, Bool.and_true] at hall
      refine not_fails_checkItems (fun v hv => ?_) (htail ▸ fails_some.2 hall)
      obtain ⟨i, hle, hi⟩ := exists_of_mem_drop hv
      refine hitems i q v ?_ hi
      simp [Pattern.place?, hs, List.getElem?_eq_none hle]

/-- An accepted list is long enough and has accepted items. -/
theorem succeeds_checkList {name : String} {min : Nat}
    (h : Succeeds (e.checkList p name min v r)) :
    ∃ items, v = .array items ∧ min ≤ items.length ∧
      ∀ item ∈ items, Succeeds (e.check p item r) := by
  cases v with
  | array items =>
    unfold checkList at h
    dsimp only at h
    split at h
    · exact absurd (succeeds_some.1 h) (by simp)
    · next hlen => exact ⟨items, rfl, Nat.not_lt.1 hlen, succeeds_checkItems h⟩
  | _ => exact absurd (succeeds_some.1 h) (by simp)

/-- A list that is long enough and has no rejected item is not rejected. -/
theorem not_fails_checkList (name : String) {min : Nat} {items : List Value}
    (hmin : min ≤ items.length) (h : ∀ item ∈ items, ¬ Fails (e.check p item r)) :
    ¬ Fails (e.checkList p name min (.array items) r) := by
  unfold checkList
  dsimp only
  rw [if_neg (Nat.not_lt.2 hmin)]
  exact not_fails_checkItems h

/-! ## Dictionaries -/

/-- An accepted key is read. -/
theorem succeeds_checkKey {name : String} (h : Succeeds (e.checkKey p name r)) :
    e.Reads r p name := by
  unfold checkKey reads at h
  cases hp : e.parse p name r with
  | ok v => exact ⟨v, hp⟩
  | error err => exact absurd (succeeds_some.1 (hp ▸ h)) (by simp)
  | unfinished => exact absurd (hp ▸ h) (by simp)

/-- A key that is not accepted is refused. -/
theorem fails_checkKey {name : String} (h : Fails (e.checkKey p name r)) :
    e.Refuses r p name := by
  unfold checkKey reads at h
  cases hp : e.parse p name r with
  | ok v => exact absurd (fails_some.1 (hp ▸ h)) (by simp)
  | error err => exact ⟨err, hp⟩
  | unfinished => exact absurd (hp ▸ h) (by simp)

/-- An accepted dictionary is an object with keys that are read and values that are accepted. -/
theorem succeeds_checkDictionary {key value : Pattern}
    (h : Succeeds (e.checkDictionary key value v r)) :
    ∃ members, v = .object members ∧
      ∀ m ∈ members, e.Reads r key m.1 ∧ Succeeds (e.check value m.2 r) := by
  cases v with
  | object members =>
    refine ⟨members, rfl, fun m hm => ?_⟩
    obtain ⟨ofKey, hkey, h⟩ := succeeds_bind.1 (succeeds_all_traverse h m hm)
    obtain ⟨ofValue, hvalue, hall⟩ := succeeds_bind.1 h
    have hall : ((MatchResult.all _).under _).isSuccess = true := succeeds_some.1 hall
    simp only [MatchResult.isSuccess_under, MatchResult.isSuccess_all, List.all_cons,
      List.all_nil, Bool.and_true, Bool.and_eq_true] at hall
    exact ⟨succeeds_checkKey (hkey ▸ succeeds_some.2 hall.1), hvalue ▸ succeeds_some.2 hall.2⟩
  | _ => exact absurd (succeeds_some.1 h) (by simp)

/-- An object without refused keys and rejected values is not rejected by a dictionary. -/
theorem not_fails_checkDictionary {key value : Pattern} {members : List (String × Value)}
    (h : ∀ m ∈ members, ¬ e.Refuses r key m.1 ∧ ¬ Fails (e.check value m.2 r)) :
    ¬ Fails (e.checkDictionary key value (.object members) r) := by
  intro hf
  obtain ⟨m, hm, hf⟩ := fails_all_traverse hf
  obtain ⟨ofKey, hkey, hf⟩ := fails_bind.1 hf
  obtain ⟨ofValue, hvalue, hall⟩ := fails_bind.1 hf
  have hall : ((MatchResult.all _).under _).isSuccess = false := fails_some.1 hall
  simp only [MatchResult.isSuccess_under, MatchResult.isSuccess_all, List.all_cons,
    List.all_nil, Bool.and_true, Bool.and_eq_false_iff] at hall
  rcases hall with hall | hall
  · exact (h m hm).1 (fails_checkKey (hkey ▸ fails_some.2 hall))
  · exact (h m hm).2 (hvalue ▸ fails_some.2 hall)

/-! ## Unions -/

/-- A union that no member of takes the value has failed, unless it has no member but null. -/
theorem isSuccess_unionFailure {members : List Pattern} {results : List MatchResult}
    (hlen : results.length = members.length)
    (hfail : results.any MatchResult.isSuccess = false) :
    (unionFailure members results v).isSuccess = true ↔ Pattern.nonNull members = [] := by
  have hresult {p : Pattern} {m : MatchResult} (h : (p, m) ∈ members.zip results) :
      m.isSuccess = false := by
    have := List.any_eq_false.1 hfail m (List.of_mem_zip h).2
    simpa using this
  have hempty : (members.zip results).filter (fun a => !a.1.isNull) = [] ↔
      Pattern.nonNull members = [] := by
    rw [List.filter_eq_nil_iff, Pattern.nonNull, List.filter_eq_nil_iff]
    constructor
    · intro h p hp
      obtain ⟨i, hi, rfl⟩ := List.mem_iff_getElem.1 hp
      exact h (members[i], results[i]) (List.mem_iff_getElem.2 ⟨i, by simp; omega, by simp⟩)
    · rintro h ⟨p, m⟩ hm
      exact h p (List.of_mem_zip hm).1
  unfold unionFailure
  split
  · next hexact =>
    refine iff_of_false (by simp) fun hnil => ?_
    simp [Pattern.allExact, hnil] at hexact
  · split
    · next p m heq =>
      have hm : (p, m) ∈ members.zip results :=
        List.mem_of_mem_filter (heq ▸ List.mem_singleton_self _)
      refine iff_of_false (by simp [hresult hm]) fun hnil => ?_
      rw [hempty.2 hnil] at heq
      cases heq
    · next failures _ =>
      rw [← hempty, MatchResult.isSuccess_all, List.all_map, List.all_eq_true]
      constructor
      · intro hall
        refine List.eq_nil_iff_forall_not_mem.2 fun part hp => ?_
        have := hresult (List.mem_of_mem_filter hp)
        simpa [this] using hall part hp
      · intro hnil part hp
        rw [hnil] at hp
        cases hp

/-- A union that accepts has a member that does. -/
theorem succeeds_checkUnion {members : List Pattern} (h : Succeeds (e.checkUnion members v r)) :
    FitsUnion members v fun p v => Succeeds (e.check p v r) := by
  obtain ⟨results, hresults, h⟩ := succeeds_bind.1 h
  have hlen := congrArg List.length (traverse?_eq_some_iff.1 hresults)
  cases hany : results.any MatchResult.isSuccess with
  | true =>
    obtain ⟨m, hm, hs⟩ := List.any_eq_true.1 hany
    obtain ⟨p, hp, he⟩ := exists_of_mem_traverse? hresults hm
    refine .inl ⟨p, hp, ?_⟩
    show Succeeds (e.check p v r)
    rw [he, succeeds_some]
    exact hs
  | false =>
    refine .inr ((isSuccess_unionFailure (v := v) (by simpa using hlen.symm) hany).1 ?_)
    simpa [hany] using succeeds_some.1 h

/-- A union with a member that does not reject does not reject. -/
theorem not_fails_checkUnion {members : List Pattern}
    (h : FitsUnion members v fun p v => ¬ Fails (e.check p v r)) :
    ¬ Fails (e.checkUnion members v r) := by
  intro hf
  obtain ⟨results, hresults, hf⟩ := fails_bind.1 hf
  have hlen := congrArg List.length (traverse?_eq_some_iff.1 hresults)
  cases hany : results.any MatchResult.isSuccess with
  | true => exact absurd (fails_some.1 hf) (by simp [hany])
  | false =>
    rcases h with ⟨p, hp, hnf⟩ | hnil
    · obtain ⟨m, hm, he⟩ := exists_of_traverse? hresults hp
      have hs := List.any_eq_false.1 hany m hm
      exact hnf (he ▸ fails_some.2 (by simpa using hs))
    · have hs := (isSuccess_unionFailure (v := v) (by simpa using hlen.symm) hany).2 hnil
      exact absurd (fails_some.1 hf) (by simp [hany, hs])

/-! ## References and encoded patterns -/

/-- A reference that accepts stands for a pattern that does, or for a circle. -/
theorem succeeds_checkReference {name : String} (h : Succeeds (e.checkReference name v r)) :
    Pattern.FitsReference r name v fun p v => Succeeds (e.check p v r) := by
  unfold checkReference at h
  unfold Pattern.FitsReference
  cases hr : r.resolve name with
  | ok p => simpa only [hr] using h
  | error err =>
    rw [hr] at h
    cases err <;> first | trivial | exact absurd (succeeds_some.1 h) (by simp)

/-- A reference to a pattern that does not reject, or to a circle, does not reject. -/
theorem not_fails_checkReference {name : String}
    (h : Pattern.FitsReference r name v fun p v => ¬ Fails (e.check p v r)) :
    ¬ Fails (e.checkReference name v r) := by
  unfold Pattern.FitsReference at h
  unfold checkReference
  cases hr : r.resolve name with
  | ok p => simpa only [hr] using h
  | error err =>
    rw [hr] at h
    cases err <;> first | exact h.elim | simp

/-- A string-encoded pattern accepts texts that are read. -/
theorem succeeds_checkInString (h : Succeeds (e.checkInString p v r)) :
    ∃ text, v = .string text ∧ e.Reads r p text := by
  cases v with
  | string text =>
    refine ⟨text, rfl, ?_⟩
    unfold checkInString at h
    cases hp : e.parse p text r with
    | ok v => exact ⟨v, hp⟩
    | error err => exact absurd (succeeds_some.1 (by simpa only [hp] using h)) (by simp)
    | unfinished => exact absurd (by simpa only [hp] using h) not_succeeds_none
  | _ => exact absurd (succeeds_some.1 h) (by simp)

/-- A text that is not refused is not rejected by a string-encoded pattern. -/
theorem not_fails_checkInString {text : String} (h : ¬ e.Refuses r p text) :
    ¬ Fails (e.checkInString p (.string text) r) := by
  unfold checkInString
  cases hp : e.parse p text r with
  | ok v => simp [hp]
  | error err => exact absurd ⟨err, hp⟩ h
  | unfinished => simp [hp]

/-- A comma-separated pattern accepts texts whose items are read. -/
theorem succeeds_checkCsv (h : Succeeds (e.checkCsv p v r)) :
    ∃ text, v = .string text ∧ ∀ t ∈ csvItems text, e.Reads r p t := by
  cases v with
  | string text =>
    refine ⟨text, rfl, fun t ht => ?_⟩
    obtain ⟨i, hi⟩ := List.getElem?_of_mem ht
    have ht := succeeds_all_traverse h (t, i) (List.mem_zipIdx_iff_getElem?.2 hi)
    cases hp : e.parse p t r with
    | ok v => exact ⟨v, hp⟩
    | error err => exact absurd (succeeds_some.1 (by simpa only [hp] using ht)) (by simp)
    | unfinished => exact absurd (by simpa only [hp] using ht) not_succeeds_none
  | _ => exact absurd (succeeds_some.1 h) (by simp)

/-- A text without refused items is not rejected by a comma-separated pattern. -/
theorem not_fails_checkCsv {text : String} (h : ∀ t ∈ csvItems text, ¬ e.Refuses r p t) :
    ¬ Fails (e.checkCsv p (.string text) r) := by
  intro hf
  obtain ⟨⟨t, i⟩, hm, hf⟩ := fails_all_traverse hf
  cases hp : e.parse p t r with
  | ok v => exact absurd (fails_some.1 (by simpa only [hp] using hf)) (by simp)
  | error err => exact h t (List.fst_mem_of_mem_zipIdx hm) ⟨err, hp⟩
  | unfinished => exact absurd (by simpa only [hp] using hf) not_fails_none

/-! ## All patterns -/

/-- The test for success tells the success. -/
theorem isSuccess_iff {m : MatchResult} : m.isSuccess = true ↔ m = .success := by
  cases m <;> simp

/-- A match that succeeds has found that the value has the shape of the pattern. -/
theorem fits_of_succeeds (h : Succeeds (e.checkValue p v r)) :
    p.Fits r (fun p v => Succeeds (e.check p v r)) (e.Reads r) v := by
  cases p with
  | scalar => exact isSuccess_iff.1 (succeeds_some.1 h)
  | anything | xml => trivial
  | object => exact succeeds_checkObject h
  | array => exact succeeds_checkArray h
  | list | rest => exact succeeds_checkList h
  | dictionary => exact succeeds_checkDictionary h
  | union | enumeration => exact succeeds_checkUnion h
  | exact value =>
    have hs : (checkExact value v).isSuccess = true := succeeds_some.1 h
    unfold checkExact at hs
    split at hs
    · next heq => exact heq
    · cases hs
  | reference => exact succeeds_checkReference h
  | lookup => exact h
  | inString => exact succeeds_checkInString h
  | csv => exact succeeds_checkCsv h

/-- A match does not fail where the value has the shape of the pattern and no part fails. -/
theorem not_fails_of_fits (hx : ∀ shape, p ≠ .xml shape)
    (h : p.Fits r (fun p v => ¬ Fails (e.check p v r)) (fun p t => ¬ e.Refuses r p t) v) :
    ¬ Fails (e.checkValue p v r) := by
  cases p with
  | scalar s =>
    have hs : s.check v = .success := h
    simp [checkValue, hs]
  | anything => simp [checkValue]
  | object layout keys title =>
    obtain ⟨members, rfl, h⟩ := h
    exact not_fails_checkObject title h
  | array =>
    obtain ⟨items, rfl, h⟩ := h
    exact not_fails_checkArray h
  | list element title min =>
    obtain ⟨items, rfl, hmin, h⟩ := h
    exact not_fails_checkList (Pattern.list element title min).typeName hmin h
  | rest element min =>
    obtain ⟨items, rfl, hmin, h⟩ := h
    exact not_fails_checkList (Pattern.rest element min).typeName hmin h
  | dictionary =>
    obtain ⟨members, rfl, h⟩ := h
    exact not_fails_checkDictionary h
  | xml shape => exact absurd rfl (hx shape)
  | union | enumeration => exact not_fails_checkUnion h
  | exact value =>
    have heq : value.equal v = true := h
    simp [checkValue, checkExact, BEq.beq, heq]
  | reference => exact not_fails_checkReference h
  | lookup => exact h
  | inString =>
    obtain ⟨text, rfl, h⟩ := h
    exact not_fails_checkInString h
  | csv =>
    obtain ⟨text, rfl, h⟩ := h
    exact not_fails_checkCsv h

end Engine

end DataContract
