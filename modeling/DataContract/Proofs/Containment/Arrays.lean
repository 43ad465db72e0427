import DataContract.Proofs.Containment.Structures

/-!
# Containment of arrays is sound

Arrays are compared place by place: a comparison that succeeds has compared the two patterns at
every index at which both arrays have one. A repetition is compared with every place of an array and
with the element of a list.
-/

namespace DataContract

namespace Engine

open MatchResult (isSuccess)
open Pattern (BiggerNode SmallerNode FitsArray FitsLength place? splitRest)

variable {mine theirs : Resolver} {e : Engine} {stack : TypeStack} {k : Nat} {p q : Pattern}

/-! ## Places -/

/-- The comparison of a first element, and that of the ones behind it. -/
theorem encompassesElements_cons {rest : Option Pattern} {i : Nat} {bigger smaller : List Pattern}
    {results : List MatchResult}
    (h : e.encompassesElements mine theirs stack rest i bigger (q :: smaller) = some results) :
    ∃ (result : MatchResult) (later : List MatchResult),
      results = result.under (indexCrumb i) :: later ∧
      e.encompassesElements mine theirs stack rest (i + 1) (bigger.drop 1) smaller = some later ∧
      (result.isSuccess = true → ∃ p, bigger.head?.or rest = some p ∧
        Succeeds (e.encompasses p q mine theirs stack)) := by
  simp only [encompassesElements] at h
  split at h
  · next p hp =>
    obtain ⟨result, hresult, h⟩ := Option.bind_eq_some_iff.1 h
    obtain ⟨later, hlater, h⟩ := Option.bind_eq_some_iff.1 h
    cases h
    exact ⟨result, later, rfl, hlater, fun hs => ⟨p, hp, hresult ▸ succeeds_some.2 hs⟩⟩
  · obtain ⟨result, hresult, h⟩ := Option.bind_eq_some_iff.1 h
    obtain ⟨later, hlater, h⟩ := Option.bind_eq_some_iff.1 h
    cases hresult
    cases h
    exact ⟨_, later, rfl, hlater, fun hs => absurd hs (by simp)⟩

/-- Elements that are contained are so in the pattern at their index. -/
theorem succeeds_encompassesElements {rest : Option Pattern} {i : Nat}
    {bigger smaller : List Pattern} {results : List MatchResult}
    (h : e.encompassesElements mine theirs stack rest i bigger smaller = some results)
    (hall : results.all isSuccess = true) {j : Nat} (hq : smaller[j]? = some q) :
    ∃ p, (bigger[j]?).or rest = some p ∧ Succeeds (e.encompasses p q mine theirs stack) := by
  induction smaller generalizing i j bigger results with
  | nil => cases hq
  | cons first smaller ih =>
    obtain ⟨result, later, rfl, hlater, hresult⟩ := encompassesElements_cons h
    simp only [List.all_cons, MatchResult.isSuccess_under, Bool.and_eq_true] at hall
    cases j with
    | zero =>
      cases hq
      simpa [List.head?_eq_getElem?] using hresult hall.1
    | succ j =>
      have := ih hlater hall.2 hq
      rwa [List.getElem?_drop, Nat.add_comm] at this

/-- The fixed elements are compared, and the repetitions where both arrays have one. -/
theorem exists_of_encompassesElementwise {fixed theirFixed : List Pattern}
    {rest theirRest : Option (Pattern × Nat)}
    (h : Succeeds (e.encompassesElementwise fixed theirFixed rest theirRest mine theirs stack)) :
    (∃ head, e.encompassesElements mine theirs stack (rest.map (·.1)) 0 fixed theirFixed =
      some head ∧ head.all isSuccess = true) ∧
    ∀ last theirLast, rest = some last → theirRest = some theirLast →
      Succeeds (e.encompasses last.1 theirLast.1 mine theirs stack) := by
  obtain ⟨head, hhead, h⟩ := succeeds_bind.1 h
  split at h
  · next p m q m' =>
    obtain ⟨tail, htail, h⟩ := succeeds_bind.1 h
    have hall : (MatchResult.all _).isSuccess = true := succeeds_some.1 h
    simp only [MatchResult.isSuccess_all, List.all_append, Bool.and_eq_true, List.all_cons,
      List.all_nil, and_true] at hall
    refine ⟨⟨head, hhead, hall.1⟩, ?_⟩
    rintro _ _ ⟨rfl⟩ ⟨rfl⟩
    exact succeeds_map_under.1 (htail ▸ succeeds_some.2 hall.2)
  · next hne =>
    obtain ⟨tail, htail, h⟩ := succeeds_bind.1 h
    have hall : (MatchResult.all _).isSuccess = true := succeeds_some.1 h
    simp only [MatchResult.isSuccess_all, List.all_append, Bool.and_eq_true] at hall
    exact ⟨⟨head, hhead, hall.1⟩, fun last theirLast he he' =>
      (hne last.1 last.2 theirLast.1 theirLast.2 he he').elim⟩

/-- What two arrays of matching lengths have at an index is contained. -/
theorem succeeds_encompassesElementwise {fixed theirFixed : List Pattern}
    {rest theirRest : Option (Pattern × Nat)}
    (h : Succeeds (e.encompassesElementwise fixed theirFixed rest theirRest mine theirs stack))
    {i : Nat} (hlen : fixed.length ≤ theirFixed.length ∨ theirRest = none)
    (hp : (fixed[i]?).or (rest.map (·.1)) = some p)
    (hq : (theirFixed[i]?).or (theirRest.map (·.1)) = some q) :
    Succeeds (e.encompasses p q mine theirs stack) := by
  obtain ⟨⟨head, hhead, hall⟩, hlast⟩ := exists_of_encompassesElementwise h
  rcases Option.or_eq_some_iff.1 hq with hq | ⟨hnone, hq⟩
  · obtain ⟨p', hp', hs⟩ := succeeds_encompassesElements hhead hall hq
    rw [hp] at hp'
    cases hp'
    exact hs
  · obtain ⟨theirLast, hrest', rfl⟩ := Option.map_eq_some_iff.1 hq
    have hi : theirFixed.length ≤ i := List.getElem?_eq_none_iff.1 hnone
    have hle : fixed.length ≤ i := by
      rcases hlen with hlen | hlen
      · exact hlen.trans hi
      · rw [hlen] at hrest'
        cases hrest'
    rw [List.getElem?_eq_none hle, Option.none_or] at hp
    obtain ⟨last, hrest, rfl⟩ := Option.map_eq_some_iff.1 hp
    exact hlast _ _ hrest hrest'

/-- What a comparison of arrays has found out. -/
structure Covers (e : Engine) (elements theirElements : List Pattern) (mine theirs : Resolver)
    (stack : TypeStack) : Prop where
  finite : (splitRest elements).2 = none →
    (splitRest theirElements).2 = none ∧
      (splitRest elements).1.length = (splitRest theirElements).1.length
  unbounded : (splitRest elements).2 ≠ none →
    (splitRest elements).1.length ≤ (splitRest theirElements).1.length
  places : ∀ i p q, place? elements i = some p → place? theirElements i = some q →
    Succeeds (e.encompasses p q mine theirs stack)

/-- Arrays that compare with success cover each other place by place. -/
theorem covers_of_encompassesArrays {elements theirElements : List Pattern}
    (h : Succeeds (e.encompassesArrays elements theirElements mine theirs stack)) :
    e.Covers elements theirElements mine theirs stack := by
  unfold encompassesArrays at h
  cases hs : splitRest elements with
  | mk fixed rest =>
    cases hs' : splitRest theirElements with
    | mk theirFixed theirRest =>
      have hplaces (hlen : fixed.length ≤ theirFixed.length ∨ theirRest = none)
          (h : Succeeds (e.encompassesElementwise fixed theirFixed rest theirRest mine theirs
            stack)) (i : Nat) (p q : Pattern) (hp : place? elements i = some p)
          (hq : place? theirElements i = some q) :
          Succeeds (e.encompasses p q mine theirs stack) := by
        rw [place?, hs] at hp
        rw [place?, hs'] at hq
        exact succeeds_encompassesElementwise h hlen hp hq
      simp only [hs, hs'] at h
      cases rest with
      | none =>
        cases theirRest with
        | some last => exact absurd (succeeds_some.1 h) (by simp)
        | none =>
          dsimp only at h
          split at h
          · exact absurd (succeeds_some.1 h) (by simp)
          · next hlen =>
            refine ⟨fun _ => ?_, fun hne => ?_, hplaces (.inr rfl) h⟩
            · rw [hs, hs']
              exact ⟨rfl, not_not.1 hlen⟩
            · exact absurd (by rw [hs]) hne
      | some last =>
        dsimp only at h
        split at h
        · exact absurd (succeeds_some.1 h) (by simp)
        · next hlen =>
          have hle : fixed.length ≤ theirFixed.length := by omega
          refine ⟨fun hnone => ?_, fun _ => ?_, hplaces (.inl hle) h⟩
          · rw [hs] at hnone
            cases hnone
          · rw [hs, hs']
            exact hle

/-- What fits the length of a covered array fits that of the covering one, if that asks for no
items of its repetition. -/
theorem Covers.fitsLength {elements theirElements : List Pattern} {length : Nat}
    (h : e.Covers elements theirElements mine theirs stack)
    (hmin : ∀ p min, (splitRest elements).2 = some (p, min) → min = 0)
    (hlen : FitsLength theirElements length) : FitsLength elements length := by
  unfold FitsLength at hlen ⊢
  cases hrest : (splitRest elements).2 with
  | none =>
    obtain ⟨htheirs, heq⟩ := h.finite hrest
    rw [htheirs] at hlen
    exact hlen.trans heq.symm
  | some last =>
    obtain ⟨p, min⟩ := last
    have hle := h.unbounded (by simp [hrest])
    obtain rfl := hmin p min hrest
    dsimp only
    split at hlen <;> omega

/-- Of arrays that cover each other the containing one accepts what the other one does. -/
theorem soundAt_array {elements theirElements : List Pattern}
    (hm : mine.config.mockMode = false) (ht : theirs.config.mockMode = false)
    (hs : e.Sound mine theirs stack k) (hp : (Pattern.array elements).Everywhere BiggerNode)
    (hq : (Pattern.array theirElements).Everywhere (SmallerNode theirs))
    (h : Succeeds (e.encompassesArrays elements theirElements mine theirs stack)) :
    SoundAt mine theirs (k + 1) (.array elements) (.array theirElements) := by
  intro v hplain ha
  obtain ⟨items, rfl, hlen, hitems⟩ := ha.fits ht
  have hcovers := covers_of_encompassesArrays h
  rw [Pattern.check_succ hm]
  refine not_fails_checkArray ⟨hcovers.fitsLength hp.here.2 hlen, fun i p v hpi hv => ?_⟩
  obtain ⟨hlt, -⟩ := List.getElem?_eq_some_iff.1 hv
  obtain ⟨q, hqi⟩ := Pattern.exists_place hlen hlt
  cases hplain with
  | array values =>
    exact hs p q (hp.place hpi) (hq.place hqi) (hcovers.places i p q hpi hqi) v
      (values v (List.mem_of_getElem? hv)) (hitems i q v hqi hv)

/-! ## Repetitions -/

/-- What a repetition among the elements of an array repeats; any other element is itself. -/
def repeatedPattern : Pattern → Pattern
  | .rest inner _ => inner
  | p => p

/-- What the elements of an array that a repetition contains are or repeat is contained in what it
repeats. -/
theorem succeeds_repeatedPattern {element : Pattern} {elements : List Pattern}
    (h : Succeeds (e.encompassesRepeated element (.array elements) mine theirs stack))
    (hp : p ∈ elements) :
    Succeeds (e.encompasses element (repeatedPattern p) mine theirs stack) := by
  obtain ⟨i, hi⟩ := List.getElem?_of_mem hp
  exact succeeds_map_under.1 (succeeds_all_traverse h (p, i) (List.mem_zipIdx_iff_getElem?.2 hi))

/-- The pattern at a place of an array that a repetition contains is contained in what it repeats,
unless it is a repetition itself. -/
theorem succeeds_place {element : Pattern} {elements : List Pattern} {i : Nat}
    (h : Succeeds (e.encompassesRepeated element (.array elements) mine theirs stack))
    (hpi : place? elements i = some p) (hp : p.isRest = false) :
    Succeeds (e.encompasses element p mine theirs stack) := by
  rcases Option.or_eq_some_iff.1 hpi with hpi | ⟨-, hpi⟩
  · have hs := succeeds_repeatedPattern h (Pattern.mem_of_mem_splitRest (List.mem_of_getElem? hpi))
    cases p with
    | rest => cases hp
    | _ => exact hs
  · obtain ⟨⟨_, min⟩, hrest, rfl⟩ := Option.map_eq_some_iff.1 hpi
    exact succeeds_repeatedPattern h (Pattern.rest_mem_of_splitRest hrest)

/-- What a repetition contains takes only arrays of items that its pattern does not reject. -/
theorem repeated_of_encompassesRepeated {element : Pattern}
    (ht : theirs.config.mockMode = false) (hs : e.Sound mine theirs stack k)
    (hp : element.Everywhere BiggerNode) (hq : q.Everywhere (SmallerNode theirs))
    (hkind : (∃ p title min, q = .list p title min) ∨ ∃ elements, q = .array elements)
    (h : Succeeds (e.encompassesRepeated element q mine theirs stack)) {v : Value}
    (hplain : v.Plain) (ha : q.Accepts v theirs) :
    ∃ items, v = .array items ∧
      ∀ item ∈ items, ¬ Fails ((ofBudget k).check element item mine) := by
  rcases hkind with ⟨p, title, min, rfl⟩ | ⟨elements, rfl⟩
  · obtain ⟨items, rfl, -, hitems⟩ := ha.fits ht
    cases hplain with
    | array values =>
      refine ⟨items, rfl, fun item hi => ?_⟩
      exact hs element p hp (hq.part List.mem_cons_self) h item (values item hi) (hitems item hi)
  · obtain ⟨items, rfl, hlen, hitems⟩ := ha.fits ht
    cases hplain with
    | array values =>
      refine ⟨items, rfl, fun item hi => ?_⟩
      obtain ⟨i, hi'⟩ := List.getElem?_of_mem hi
      obtain ⟨hlt, -⟩ := List.getElem?_eq_some_iff.1 hi'
      obtain ⟨p, hpi⟩ := Pattern.exists_place hlen hlt
      have hnode := hq.place hpi
      have hplace := succeeds_place h hpi (Pattern.Comparable.isRest hnode.here.1)
      exact hs element p hp hnode hplace item (values item hi) (hitems i p item hpi hi')

end Engine

end DataContract
