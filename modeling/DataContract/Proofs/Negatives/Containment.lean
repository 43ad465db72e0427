import DataContract.Proofs.Closed.Variants
import DataContract.Proofs.Containment.Resemblance
import DataContract.Proofs.Containment.Soundness
import DataContract.Proofs.Containment.Stacks
import DataContract.Proofs.Negatives.Soundness
import DataContract.Proofs.Termination.Budget

/-!
# Negative variants are not contained

Outside mock mode and without recursion, comparing a pattern with one of its negative variants fails
(`Pattern.fails_isCompatibleWith_negative`). Containment goes into a pattern by its own recursion,
which is not the one that enumerates negatives. So for each kind of structure there is a lemma that
a structure which contains its corrupted form contains, at the place that was corrupted, the
negative; the induction is on the budget of the enumeration.

Two kinds are no structures. A union has only negatives that were compared with its members, on an
empty stack and on another budget. A reference is compared with its name on the stack, which without
recursion makes no difference to what it stands for.
-/

namespace DataContract

/-- A scalar contains scalars of its own family only. -/
theorem Scalar.family_of_encompasses {a b : Scalar} (h : a.encompasses b = .success) :
    a.family = b.family := by
  have hkind {message : String}
      (h : (if a.sameKind b then MatchResult.success else .fail message) = .success) :
      a.family = b.family := by
    split at h
    · next hkind =>
      rcases eq_of_sameKind hkind with rfl | ⟨r, q, rfl, rfl⟩ | ⟨r, q, rfl, rfl⟩ <;> rfl
    · cases h
  unfold encompasses at h
  dsimp only at h
  split at h
  · rfl
  · rfl
  · split at h
    · rfl
    · split at h
      · next hfits =>
        simp only [Bool.false_or, Bool.and_eq_true, decide_eq_true_eq] at hfits
        exact hfits.1.symm
      · exact hkind h
  · split at h
    · next hb => exact hb.symm
    · exact hkind h
  · exact hkind h

namespace Pattern

variable {mine theirs : Resolver} {p q : Pattern}

/-! ## Scalars -/

/-- A direct pattern that is not everything contains a scalar only if it is a scalar of the same
family. -/
theorem not_contains_scalar {t : Scalar} (hp : p.Direct) (hany : p ≠ .anything)
    (hs : ∀ s, p = .scalar s → s.family ≠ t.family) : ¬ p.Contains (.scalar t) mine theirs := by
  intro h
  obtain ⟨n, hn⟩ := h.byKind trivial
  cases p with
  | scalar s => exact hs s rfl (Scalar.family_of_encompasses (Option.some.inj hn))
  | anything => exact hany rfl
  | reference | lookup | union | enumeration => exact hp.elim
  | _ => cases hn

/-! ## Structures -/

/-- An object that contains its corrupted form contains the negative under its key. -/
theorem contains_of_corrupt {layout layout' : Layout} {keys : List (String × Pattern)}
    {title title' : Option String} {key : String} (hm : (key, p) ∈ declaredKeys keys)
    (h : (object layout keys title).Contains
      (.object layout' (NegativePolicy.corrupt (declaredKeys keys) key q) title') mine theirs) :
    p.Contains q mine theirs := by
  obtain ⟨n, hn⟩ := h.byKind trivial
  have hget : Fields.get? (NegativePolicy.corrupt (declaredKeys keys) key q) (Key.base key) =
      some q := Fields.get?_set_self _ _ _
  have hnamed : keyNamed? (NegativePolicy.corrupt (declaredKeys keys) key q) (Key.base key) =
      some (Key.base key, q) := by
    rw [keyNamed?, hget]
  rcases Engine.succeeds_encompassesKey (succeeds_all_traverse hn _ hm) with
    ⟨hnone, -⟩ | ⟨_, _, hsome, -, hs⟩
  · cases hnone.symm.trans hnamed
  · cases hsome.symm.trans hnamed
    exact ⟨n, hs⟩

/-- A closing rest is split off its array together with its least number of items. -/
theorem splitRest_concat_rest (elements : List Pattern) (p : Pattern) (min : Nat) :
    splitRest (elements ++ [.rest p min]) = (elements, some (p, min)) := by
  induction elements with
  | nil => rfl
  | cons first elements ih =>
    cases elements with
    | nil => exact splitRest_cons_cons _ _ _
    | cons second elements =>
      rw [List.cons_append, List.cons_append, splitRest_cons_cons, ← List.cons_append, ih]

/-- An array whose last element is not a rest has none to split off. -/
theorem splitRest_concat (hp : p.isRest = false) (elements : List Pattern) :
    splitRest (elements ++ [p]) = (elements ++ [p], none) := by
  induction elements with
  | nil => exact splitRest_cons hp []
  | cons first elements ih =>
    cases elements with
    | nil =>
      rw [List.cons_append, List.nil_append, splitRest_cons_cons, splitRest_cons hp, splitRest]
    | cons second elements =>
      rw [List.cons_append, List.cons_append, splitRest_cons_cons, ← List.cons_append, ih]

/-- An element that is no repetition at the end stands at its place. -/
theorem place?_of_lt {elements : List Pattern} {i : Nat} (hi : (elements ++ [q])[i]? = some p)
    (h : i < elements.length ∨ q.isRest = false) : place? (elements ++ [q]) i = some p := by
  cases hq : q.isRest with
  | true =>
    have hlt := h.resolve_right (by simp [hq])
    cases q with
    | rest =>
      rw [List.getElem?_append_left hlt] at hi
      rw [place?, splitRest_concat_rest, hi, Option.some_or]
    | _ => cases hq
  | false => rw [place?, splitRest_concat hq, hi, Option.some_or]

/-- The place just past the fixed elements belongs to the pattern of the closing rest. -/
theorem place?_rest (elements : List Pattern) (min : Nat) :
    place? (elements ++ [.rest p min]) elements.length = some p := by
  rw [place?, splitRest_concat_rest, List.getElem?_eq_none (Nat.le_refl _)]
  rfl

/-- Where one element of an array is replaced, the replaced one and the new one stand at the same
place of the arrays, or what they repeat does, or only the new array ends in a repetition. -/
theorem place_set {elements : List Pattern} {i : Nat} (hi : elements[i]? = some p)
    (hrest : p.isRest = true → q.isRest = true) :
    (place? elements i = some p ∧ place? (elements.set i q) i = some q) ∨
      (∃ p' m q' k, p = .rest p' m ∧ q = .rest q' k ∧ place? elements i = some p' ∧
        place? (elements.set i q) i = some q') ∨
      ((splitRest elements).2 = none ∧ (splitRest (elements.set i q)).2 ≠ none) := by
  have hlt := (List.getElem?_eq_some_iff.1 hi).1
  have hset : (elements.set i q)[i]? = some q := List.getElem?_set_self hlt
  obtain rfl | ⟨init, last, rfl⟩ := elements.eq_nil_or_concat'
  · cases hi
  · rcases Nat.lt_or_ge i init.length with hinit | hge
    · rw [List.set_append_left i q hinit] at hset ⊢
      exact .inl ⟨place?_of_lt hi (.inl hinit), place?_of_lt hset (.inl (by simpa using hinit))⟩
    · obtain rfl : i = init.length := by
        rw [List.length_append, List.length_singleton] at hlt
        omega
      obtain rfl : last = p := by simpa using hi
      have hnew : (init ++ [last]).set init.length q = init ++ [q] := by simp
      rw [hnew] at hset ⊢
      cases hlast : last.isRest with
      | true =>
        cases last with
        | rest p' m =>
          cases q with
          | rest q' k =>
            exact .inr (.inl ⟨p', m, q', k, rfl, rfl, place?_rest _ _, place?_rest _ _⟩)
          | _ => cases hrest hlast
        | _ => cases hlast
      | false =>
        cases hq : q.isRest with
        | true =>
          cases q with
          | rest q' k =>
            rw [splitRest_concat hlast, splitRest_concat_rest]
            exact .inr (.inr ⟨rfl, Option.some_ne_none _⟩)
          | _ => cases hq
        | false => exact .inl ⟨place?_of_lt hi (.inr hlast), place?_of_lt hset (.inr hq)⟩

/-- An array contains itself with one place changed only where the pattern of that place contains
the change. -/
theorem contains_of_set {elements : List Pattern} {i : Nat} (hi : elements[i]? = some p)
    (hrest : p.isRest = true → q.isRest = true)
    (h : (array elements).Contains (.array (elements.set i q)) mine theirs) :
    p.Contains q mine theirs := by
  obtain ⟨n, hn⟩ := h.byKind trivial
  have hcovers := Engine.covers_of_encompassesArrays hn
  rcases place_set hi hrest with ⟨hp, hq⟩ | ⟨p', m, q', k, rfl, rfl, hp, hq⟩ | ⟨hnone, hsome⟩
  · exact ⟨n, hcovers.places i p q hp hq⟩
  · exact ⟨n + 1, hcovers.places i p' q' hp hq⟩
  · exact absurd (hcovers.finite hnone).1 hsome

/-- Containment between dictionaries descends to the patterns of their values. -/
theorem contains_of_dictionary {key value theirKey : Pattern}
    (h : (dictionary key value).Contains (.dictionary theirKey q) mine theirs) :
    value.Contains q mine theirs := by
  obtain ⟨n, hn⟩ := h.byKind trivial
  exact ⟨n, (Engine.succeeds_encompassesDictionary hn).2⟩

/-! ## Unions and references -/

/-- Members that contain a direct pattern together have one that contains it. -/
theorem exists_contains_of_members {members : List Pattern} {name : String} {n : Nat}
    (hne : members ≠ []) (hq : q.Direct)
    (h : Succeeds ((Engine.ofBudget n).encompassesUnion members name q mine theirs [])) :
    ∃ p ∈ members, p.Contains q mine theirs := by
  have hmem : q ∈ q.unionMembers := hq.unionMembers ▸ List.mem_cons_self
  obtain ⟨p, hp, hs⟩ := Engine.succeeds_encompassesUnion hne h q hmem
  exact ⟨p, hp, n, hs⟩

/-- What a name stands for contains what the name contains: that the name is on the stack makes no
difference. -/
theorem contains_of_reference {name : String} (hr : mine.NonRecursive)
    (hname : (reference name).Grounded mine) (hp : mine.resolve name = .ok p) (hq : q.Direct)
    (h : (reference name).Contains q mine theirs) : p.Contains q mine theirs := by
  obtain ⟨n, hn⟩ := h.byKind hq
  have hfollowed : ∃ stack, mine.Apart stack p ∧
      Succeeds ((Engine.ofBudget n).followed name q mine theirs stack) := by
    have hn : Succeeds ((Engine.ofBudget n).encompassesReference name q mine theirs []) := hn
    rw [Engine.encompassesReference_eq] at hn
    split at hn
    · exact ⟨[], mine.apart_nil p, hn⟩
    · exact ⟨_, .push hr (mine.apart_nil _) hp, hn⟩
  obtain ⟨stack, hapart, hs⟩ := hfollowed
  rw [Engine.followed, hp, hq.resolved] at hs
  have hfree : (Engine.ofBudget n).StackFree mine theirs := Engine.stackFree_ofBudget hr n
  have hsame := hfree p stack [] (hname.of_resolve hp) hapart (mine.apart_nil p) q
  exact ⟨n, hsame ▸ hs⟩

end Pattern

/-- The negatives of a grounded pattern are direct, it does not contain them, and those of a
repetition are repetitions. -/
structure NegativeSource.Excluded (source : NegativeSource) (r : Resolver) : Prop where
  direct {p q : Pattern} {row : Row} {r' : Resolver} (hr : r'.Alike r) (hp : p.Grounded r)
    (hq : q ∈ (source p row r').toList) : q.Direct
  rest {p q : Pattern} {row : Row} {r' : Resolver} (hr : r'.Alike r) (hp : p.isRest = true)
    (hq : q ∈ (source p row r').toList) : q.isRest = true
  not_contains {p q : Pattern} {row : Row} {r' : Resolver} (hr : r'.Alike r) (hp : p.Grounded r)
    (hq : q ∈ (source p row r').toList) : ¬ p.Contains q r r

namespace Negatives

open Pattern (not_contains_scalar)

variable {source : NegativeSource} {r r' : Resolver} {row : Row} {p q : Pattern} {n : Nat}

/-! ## The kinds of patterns -/

/-- The wrong shapes of a family hold no references. -/
theorem direct_of_mem_ofFamily {f : Family} (hq : q ∈ ofFamily f) : q.Direct := by
  obtain ⟨s, rfl, -⟩ := exists_of_mem_ofFamily hq
  trivial

/-- The scalars of other families are not contained in a direct pattern that has no scalar of
another family. -/
theorem not_contains_of_mem_ofFamily {f : Family} (hp : p.Direct) (hany : p ≠ .anything)
    (hf : ∀ s, p = .scalar s → s.family = f) (hq : q ∈ ofFamily f) : ¬ p.Contains q r r := by
  obtain ⟨t, rfl, ht⟩ := exists_of_mem_ofFamily hq
  exact not_contains_scalar hp hany fun s hs hfamily => ht (hfamily.symm.trans (hf s hs))

/-- No literal contains a scalar, and null contains only null. -/
theorem not_contains_enumeration {shape : Enumeration}
    (hq : q ∈ (ofFamily shape.family).filter fun p => !(shape.nullable && p.isNull)) :
    ¬ (Pattern.enumeration shape).Contains q r r := by
  obtain ⟨hq, hnull⟩ := List.mem_filter.1 hq
  have hdirect := direct_of_mem_ofFamily hq
  have hne : shape.members ≠ [] := by
    intro hnil
    have hliterals : shape.literals = [] := List.map_eq_nil_iff.1 (List.append_eq_nil_iff.1 hnil).1
    rw [Enumeration.family, hliterals] at hq
    cases hq
  obtain ⟨t, rfl, -⟩ := exists_of_mem_ofFamily hq
  intro h
  obtain ⟨n, hn⟩ := h.byKind hdirect
  obtain ⟨p, hp, hcontains⟩ := Pattern.exists_contains_of_members hne hdirect hn
  rcases List.mem_append.1 hp with hp | hp
  · obtain ⟨v, -, rfl⟩ := List.mem_map.1 hp
    exact absurd hcontains (not_contains_scalar trivial (by simp) (by simp))
  · split at hp
    · next hnullable =>
      obtain rfl := List.mem_singleton.1 hp
      refine absurd hcontains
        (not_contains_scalar trivial (by simp [Pattern.null]) fun s hs hfamily => ?_)
      cases hs
      cases t with
      | null => simp [hnullable, Pattern.isNull] at hnull
      | _ => cases hfamily
    · cases hp

/-- A list contains neither the scalars nor a list of what its element does not contain. -/
theorem not_contains_list {e : Engine} {element : Pattern} {title : Option String} {min : Nat}
    (hs : source.Excluded r) (hr : r'.Alike r) (hp : element.Grounded r)
    (hq : q ∈ (step e source (.list element title min) row r').toList) :
    ¬ (Pattern.list element title min).Contains q r r := by
  intro h
  rcases cases_of_mem_list hq with hq | ⟨negative, hnegative, rfl⟩
  · obtain ⟨s, rfl, -⟩ := exists_of_mem_simple hq
    exact absurd h (not_contains_scalar trivial nofun nofun)
  · obtain ⟨n, hn⟩ := h.byKind trivial
    exact hs.not_contains (alike_inNegative hr) hp hnegative ⟨n, hn⟩

/-- What no member was found to contain the union does not contain. -/
theorem not_contains_union {members : List Pattern} {title text : Option String}
    (hs : source.Excluded r) (hr : r'.Alike r) (hp : ∀ p ∈ members, p.Grounded r)
    (hq : q ∈ (union (Engine.ofBudget n) source members row r').toList) :
    ¬ (Pattern.union members title text).Contains q r r := by
  obtain ⟨⟨p, hmember, hsource⟩, houtside⟩ := exists_of_mem_union hq
  have hmember := List.mem_of_mem_filter hmember
  have hdirect := hs.direct hr (hp p hmember) hsource
  intro h
  obtain ⟨k, hk⟩ := h.byKind hdirect
  obtain ⟨m, hm, hcontains⟩ :=
    Pattern.exists_contains_of_members (List.ne_nil_of_mem hmember) hdirect hk
  exact houtside.not_contains hr hm hcontains

/-- An encoding contains neither the scalars of other families nor an encoding of what its type does
not contain. -/
theorem not_contains_inString {e : Engine} {type : Pattern} (hs : source.Excluded r)
    (hr : r'.Alike r) (hp : type.Grounded r)
    (hq : q ∈ (step e source (.inString type) row r').toList) :
    ¬ (Pattern.inString type).Contains q r r := by
  rcases cases_of_mem_inString hq with hq | ⟨negative, hnegative, -, rfl⟩
  · exact not_contains_of_mem_ofFamily trivial nofun nofun hq
  · intro h
    obtain ⟨n, hn⟩ := h.byKind trivial
    exact hs.not_contains hr hp hnegative ⟨n, hn⟩

/-! ## All patterns -/

/-- One step of the negatives proposes only patterns that are taken as they are, even of a name, a
lookup or a union. -/
theorem direct_of_step (hs : source.Excluded r) (hr : r'.Alike r) (hp : p.Grounded r)
    (hq : q ∈ (step (Engine.ofBudget n) source p row r').toList) : q.Direct := by
  cases p with
  | anything => cases hq
  | scalar | exact | csv =>
    rw [step, LazyList.toList_ofList] at hq
    exact direct_of_mem_ofFamily hq
  | enumeration =>
    rw [step, LazyList.toList_ofList] at hq
    exact direct_of_mem_ofFamily (List.mem_of_mem_filter hq)
  | object | rest | dictionary =>
    obtain ⟨_, -, rfl⟩ := LazyList.mem_toList_map hq
    trivial
  | array elements =>
    obtain ⟨_, _, _, -, -, rfl⟩ := exists_of_mem_array hq
    trivial
  | list element title min =>
    rcases cases_of_mem_list hq with hq | ⟨_, -, rfl⟩
    · obtain ⟨s, rfl, -⟩ := exists_of_mem_simple hq
      trivial
    · trivial
  | xml shape => exact absurd rfl (hp.ne_xml shape)
  | union members title text =>
    obtain ⟨⟨p, hmember, hsource⟩, -⟩ := exists_of_mem_union hq
    exact hs.direct hr (hp.inside (List.mem_of_mem_filter hmember)) hsource
  | reference name =>
    unfold step at hq
    dsimp only at hq
    split at hq
    · cases hq
    · next s hexpand =>
      have hsr := (Resolver.Alike.of_expand hexpand).trans hr
      split at hq
      · cases hq
      · next p hresolve =>
        rw [hsr.resolve] at hresolve
        exact hs.direct hsr (hp.of_resolve hresolve) hq
  | lookup key type => exact hs.direct hr (hp.inside List.mem_cons_self) hq
  | inString type =>
    rcases cases_of_mem_inString hq with hq | ⟨_, -, -, rfl⟩
    · exact direct_of_mem_ofFamily hq
    · trivial

/-- The negatives of a rest are rests themselves. -/
theorem isRest_of_step {e : Engine} (hp : p.isRest = true)
    (hq : q ∈ (step e source p row r').toList) : q.isRest = true := by
  cases p with
  | rest element min =>
    obtain ⟨_, -, rfl⟩ := LazyList.mem_toList_map hq
    rfl
  | _ => cases hp

/-- Where the negatives of all smaller patterns are excluded by them, one more step proposes only
what the pattern does not contain. -/
theorem not_contains_of_step (hnon : r.NonRecursive) (hs : source.Excluded r) (hr : r'.Alike r)
    (hp : p.Grounded r) (hq : q ∈ (step (Engine.ofBudget n) source p row r').toList) :
    ¬ p.Contains q r r := by
  cases p with
  | scalar s =>
    rw [step, LazyList.toList_ofList] at hq
    refine not_contains_of_mem_ofFamily trivial (by simp) (fun t ht => ?_) hq
    cases ht
    rfl
  | anything => cases hq
  | exact | csv =>
    rw [step, LazyList.toList_ofList] at hq
    exact not_contains_of_mem_ofFamily trivial (by simp) (by simp) hq
  | object layout keys title =>
    obtain ⟨corrupted, hcorrupted, rfl⟩ := LazyList.mem_toList_map hq
    obtain ⟨key, p, negative, hm, hnegative, rfl⟩ := exists_of_mem_corruptions hcorrupted
    have hkey := hp.key (Pattern.mem_declaredKeys.1 hm).1
    intro h
    exact hs.not_contains (alike_inNegative hr) hkey hnegative (Pattern.contains_of_corrupt hm h)
  | array elements =>
    obtain ⟨i, p, negative, hi, hnegative, rfl⟩ := exists_of_mem_array hq
    have hr := alike_inNegative hr
    have helement := hp.inside (List.mem_of_getElem? hi)
    intro h
    exact hs.not_contains hr helement hnegative
      (Pattern.contains_of_set hi (fun hrest => hs.rest hr hrest hnegative) h)
  | list element title min =>
    exact not_contains_list hs hr (hp.inside List.mem_cons_self) hq
  | rest element min =>
    obtain ⟨negative, hnegative, rfl⟩ := LazyList.mem_toList_map hq
    intro h
    obtain ⟨n, hn⟩ := h.byKind trivial
    exact hs.not_contains (alike_inNegative hr) (hp.inside List.mem_cons_self) hnegative ⟨n, hn⟩
  | dictionary key value =>
    obtain ⟨negative, hnegative, rfl⟩ := LazyList.mem_toList_map hq
    have hvalue := hp.inside (List.mem_cons_of_mem _ List.mem_cons_self)
    intro h
    exact hs.not_contains (alike_inNegative hr) hvalue hnegative (Pattern.contains_of_dictionary h)
  | xml shape => exact absurd rfl (hp.ne_xml shape)
  | union members title text => exact not_contains_union hs hr (fun p hm => hp.inside hm) hq
  | enumeration shape =>
    rw [step, LazyList.toList_ofList] at hq
    exact not_contains_enumeration hq
  | reference name =>
    unfold step at hq
    dsimp only at hq
    split at hq
    · cases hq
    · next s hexpand =>
      have hsr := (Resolver.Alike.of_expand hexpand).trans hr
      split at hq
      · cases hq
      · next p hresolve =>
        rw [hsr.resolve] at hresolve
        have hgrounded := hp.of_resolve hresolve
        have hdirect := hs.direct hsr hgrounded hq
        intro h
        exact hs.not_contains hsr hgrounded hq
          (Pattern.contains_of_reference hnon hp hresolve hdirect h)
  | lookup key type =>
    have htype := hp.inside List.mem_cons_self
    intro h
    obtain ⟨n, hn⟩ := h.byKind (hs.direct hr htype hq)
    exact hs.not_contains hr htype hq ⟨n, hn⟩
  | inString type => exact not_contains_inString hs hr (hp.inside List.mem_cons_self) hq

/-- At every budget, no grounded pattern contains a negative of its own. -/
theorem excluded_ofBudget (hnon : r.NonRecursive) (n : Nat) : (ofBudget n).Excluded r := by
  induction n with
  | zero => exact ⟨nofun, nofun, nofun⟩
  | succ n ih =>
    exact ⟨fun hr hp hq => direct_of_step ih hr hp hq, fun _ hp hq => isRest_of_step hp hq,
      fun hr hp hq => not_contains_of_step hnon ih hr hp hq⟩

end Negatives

namespace Pattern

variable {p q : Pattern} {r : Resolver} {row : Row}

/-- Comparing a pattern with one of its negatives ends in a failure. -/
theorem fails_isCompatibleWith_negative (hmock : r.config.mockMode = false)
    (hr : r.NonRecursive) (hp : p.Grounded r) (hq : p.HasNegative row r q) :
    Fails (p.isCompatibleWith q r r) := by
  obtain ⟨n, hq⟩ := hq
  have hgrounded := (Negatives.keepsGrounded_ofBudget n).grounded hp hq
  obtain ⟨m, hm⟩ := exists_isCompatibleWith hr hr hmock hp hgrounded
  rcases succeeds_or_fails hm with hs | hf
  · have hexcluded := (Negatives.excluded_ofBudget hr n).not_contains (.refl r) hp hq
    exact absurd (contains_of_isCompatibleWith hs) hexcluded
  · exact hf

/-- A type without references: an address has a street and perhaps a number, which may be null. -/
def address : Pattern :=
  .object .json [("street", .string), ("zip?", .nullable .number)] (some "(Address)")

/-- A type with a reference: a customer has an address and a list of strings in a string. -/
def customer : Pattern :=
  .object .json [("home", .reference "(Address)"), ("tags", .inString (.listOf .string))]
    (some "(Customer)")

/-- Both types are registered. -/
def customerResolver : Resolver :=
  (Resolver.empty.register "Address" address).register "Customer" customer

/-- A repetition that is not at the end, then a union. -/
def visits : Pattern :=
  .array [.rest (.reference "(Customer)") 0,
    .union [.reference "(Customer)", .csv .boolean] none none]

/-- The negative of a visit by a customer whose address has a boolean for its number. -/
def visitsNegative : Pattern :=
  .array [.rest (.reference "(Customer)") 0,
    .object .json
      [("home", .object .json [("street", .string), ("zip", .boolean)] (some "(Address)")),
        ("tags", .inString (.listOf .string))] (some "(Customer)")]

/-- The registry of the example has no cycle through its names. -/
theorem customerResolver_nonRecursive : customerResolver.NonRecursive := by
  refine Resolver.not_transGen_of_rank
    (fun name => if Name.delimited name = "(Customer)" then 1 else 0) ?_
  rintro name next ⟨p, hp, hnext⟩
  have hmem : (Name.delimited name, p) ∈ [("(Address)", address), ("(Customer)", customer)] :=
    Resolver.mem_of_getPattern hp
  rcases List.mem_cons.1 hmem with he | hmem
  · obtain ⟨-, rfl⟩ := Prod.mk.inj he
    cases hnext
  · obtain ⟨hname, rfl⟩ := Prod.mk.inj (List.mem_singleton.1 hmem)
    obtain rfl := List.mem_singleton.1 hnext
    rw [if_pos hname]
    decide

/-- However one goes on from the example, every name is registered and no XML element is met. -/
theorem visits_grounded : visits.Grounded customerResolver := by
  have hscalar (s : Scalar) : (scalar s).Closed customerResolver := .leaf trivial rfl
  have hcustomer : (reference "(Customer)").Closed customerResolver := .leaf ⟨customer, rfl⟩ rfl
  have htags : (inString (.listOf .string)).Closed customerResolver :=
    .single trivial rfl (.single trivial rfl (hscalar _))
  have hzip : (nullable .number).Closed customerResolver := .intro trivial
    (List.forall_mem_cons.2 ⟨hscalar _, List.forall_mem_singleton.2 (hscalar _)⟩)
  have hregistry : customerResolver.Closed := by
    intro name p hp
    have hp : (name, p) ∈ [("(Address)", address), ("(Customer)", customer)] := hp
    rcases List.mem_cons.1 hp with hp | hp
    · cases hp
      exact .intro trivial
        (List.forall_mem_cons.2 ⟨hscalar _, List.forall_mem_singleton.2 hzip⟩)
    · cases List.mem_singleton.1 hp
      exact .intro trivial
        (List.forall_mem_cons.2 ⟨.leaf ⟨address, rfl⟩ rfl, List.forall_mem_singleton.2 htags⟩)
  have hunion : (union [.reference "(Customer)", .csv .boolean] none none).Closed
      customerResolver :=
    .intro trivial (List.forall_mem_cons.2
      ⟨hcustomer, List.forall_mem_singleton.2 (.single trivial rfl (hscalar _))⟩)
  have hvisits : visits.Closed customerResolver := .intro trivial (List.forall_mem_cons.2
    ⟨.single trivial rfl hcustomer, List.forall_mem_singleton.2 hunion⟩)
  exact hvisits.grounded hregistry

/-- Visits do not contain visits by customers whose address has a boolean for its number. -/
theorem visits_fails_isCompatibleWith :
    visits.HasNegative .empty customerResolver visitsNegative ∧
      Fails (visits.isCompatibleWith visitsNegative customerResolver customerResolver) := by
  have hnegative : visits.HasNegative .empty customerResolver visitsNegative :=
    ⟨12, List.mem_of_getElem? (i := 16) rfl⟩
  exact ⟨hnegative, fails_isCompatibleWith_negative rfl customerResolver_nonRecursive
    visits_grounded hnegative⟩

end Pattern

end DataContract
