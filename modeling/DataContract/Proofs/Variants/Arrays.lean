import DataContract.Proofs.Containment.Repetitions
import DataContract.Proofs.Fillings
import DataContract.Proofs.Variants.Soundness

/-!
# Variants of arrays of scalars

An array of scalars and repetitions of scalars has two variants: itself with repetitions of any
number, and the scalars alone (`Pattern.hasVariant_array_iff`). Neither keeps what a repetition asks
for. A minimum is forgotten, and without a repetition that is not the last element the elements
behind it stand elsewhere. So the array accepts what its variants accept exactly if its only
repetition is the last element and asks for nothing (`Pattern.array_accepts_variants_iff`).
-/

namespace DataContract

namespace Variants

open Pattern (IsItem)

variable {p : Pattern} {elements : List Pattern} {row : Row} {r : Resolver} {n : Nat}

/-- A repetition of any number for one with a minimum; any other pattern as it is. -/
def loosened : Pattern → Pattern
  | .rest element _ => .restOf element
  | p => p

/-- The slot for an element of an array, which is left out if it is a repetition. -/
def itemSlot (p : Pattern) : Slot Pattern :=
  ⟨[loosened p], List.cons_ne_nil _ _, p.isRest⟩

/-- The elements that are no repetitions. -/
def singles (elements : List Pattern) : List Pattern :=
  elements.filter fun p => !p.isRest

/-- A positive cap leaves a single variant as it is. -/
theorem capped_singleton (hcap : 0 < r.config.maxCombinations) (q : Pattern) :
    capped (.singleton q) r = .ok [q] := by
  obtain ⟨m, hm⟩ := Nat.exists_eq_add_one.2 hcap
  refine Outcome.ofOption_eq_ok.2 ?_
  rw [hm]
  cases m <;> rfl

/-- An item has one variant, itself, and a repetition may be left out. -/
theorem elementCandidates_succ (hcap : 0 < r.config.maxCombinations) (hp : p.IsItem) :
    elementCandidates (ofBudget (n + 1)) p row r = .ok (itemSlot p).candidates := by
  have hscalar (c : Scalar) :
      ofBudget (n + 1) (.scalar c) row r = .ok (.singleton (.scalar c)) := rfl
  cases p with
  | scalar c =>
    rw [elementCandidates, hscalar, Outcome.ok_bind, capped_singleton hcap]
    · rfl
    · nofun
  | rest element min =>
    cases element with
    | scalar c =>
      rw [elementCandidates, hscalar, Outcome.ok_bind, capped_singleton hcap]
      rfl
    | _ => exact hp.elim
  | _ => exact hp.elim

/-- The candidates of a scalar or of a repetition of one are those of its slot. -/
theorem eq_of_elementCandidates {candidates : List (Option Pattern)}
    (hcap : 0 < r.config.maxCombinations) (hp : p.IsItem)
    (h : elementCandidates (ofBudget n) p row r = .ok candidates) :
    candidates = (itemSlot p).candidates := by
  cases n with
  | zero => cases p <;> cases h
  | succ n =>
    rw [elementCandidates_succ hcap hp] at h
    cases h
    rfl

/-! ## The fillings -/

/-- The slots of the elements have one candidate each, so that they are filled in one way. -/
theorem fills_itemSlots_iff {filling : List Pattern} :
    Slots.Fills filling (elements.map itemSlot) ↔ filling = elements.map loosened := by
  rw [Slots.Fills, List.forall₂_map_right_iff, ← List.forall₂_eq_eq_eq,
    List.forall₂_map_right_iff]
  exact forall₂_congr_mem fun a _ p _ => List.mem_singleton

/-- The slots that are always filled are those of the elements that are no repetitions. -/
theorem required_itemSlots (elements : List Pattern) :
    Slots.required (elements.map itemSlot) = (singles elements).map itemSlot :=
  List.filter_map

/-- What is left without the repetitions is no repetition. -/
theorem isRest_of_mem_singles (hp : p ∈ singles elements) : p.isRest = false := by
  simpa using (List.mem_filter.1 hp).2

/-- An element that is no repetition stays as it is. -/
theorem map_loosened_singles (elements : List Pattern) :
    (singles elements).map loosened = singles elements := by
  refine (List.map_congr_left fun p hp => ?_).trans (List.map_id _)
  have hrest := isRest_of_mem_singles hp
  cases p with
  | rest => cases hrest
  | _ => rfl

/-- The slots of one candidate each are in step. -/
theorem inStep_itemSlots (elements : List Pattern) : Slots.InStep (elements.map itemSlot) := by
  refine List.forall_mem_map.2 fun p _ => List.forall_mem_map.2 fun q _ hp hq => ?_
  rw [Slot.period, Slot.period, if_pos hp, if_pos hq]
  rfl

/-- An array is filled with all elements, repetitions loosened, or with those that are no
repetitions. -/
theorem mem_fillings_iff {filling : List Pattern} :
    filling ∈ Slots.fillings ((elements.map itemSlot).map Slot.candidates) ↔
      filling = elements.map loosened ∨ filling = singles elements := by
  have hall := (inStep_itemSlots elements).allOrNothing
  have hsingles {filling : List Pattern} :
      Slots.Fills filling (Slots.required (elements.map itemSlot)) ↔
        filling = singles elements := by
    rw [required_itemSlots, fills_itemSlots_iff, map_loosened_singles]
  constructor
  · intro h
    exact (hall.every filling h).imp fills_itemSlots_iff.1 hsingles.1
  · rintro (rfl | rfl)
    · obtain ⟨filling, hmem, hfills⟩ := hall.all
      exact fills_itemSlots_iff.1 hfills ▸ hmem
    · by_cases hrest : ∃ p ∈ elements, p.isRest = true
      · obtain ⟨p, hp, hrest⟩ := hrest
        obtain ⟨filling, hmem, hfills⟩ := hall.nothing ⟨itemSlot p, List.mem_map_of_mem hp, hrest⟩
        exact hsingles.1 hfills ▸ hmem
      · -- Without a repetition all elements are singles, and there is one filling.
        push Not at hrest
        have heq : singles elements = elements :=
          List.filter_eq_self.2 fun p hp => by simpa using hrest p hp
        obtain ⟨filling, hmem, hfills⟩ := hall.all
        rw [← map_loosened_singles, heq]
        exact fills_itemSlots_iff.1 hfills ▸ hmem

/-- The variants of an array of items are the fillings of its slots. -/
theorem eq_of_array {l : LazyList Pattern} (hcap : 0 < r.config.maxCombinations)
    (hs : ∀ p ∈ elements, p.IsItem) (h : array (ofBudget n) elements row r = .ok l) :
    l = (LazyList.ofList
      (Slots.fillings ((elements.map itemSlot).map Slot.candidates))).map .array := by
  obtain ⟨slots, hslots, rfl⟩ := exists_of_array h
  have hcandidates : elements.map (Slot.candidates ∘ itemSlot) = slots := by
    rw [← List.forall₂_eq_eq_eq, List.forall₂_map_left_iff]
    exact ((List.forall₂_and_left _ _).2 ⟨hs, hslots⟩).imp
      fun p slot h => (eq_of_elementCandidates hcap h.1 h.2).symm
  rw [List.map_map, hcandidates]

/-- The variants of an array of scalars and repetitions are enumerated without an error. -/
theorem array_succ (hcap : 0 < r.config.maxCombinations) (hs : ∀ p ∈ elements, p.IsItem)
    (row : Row) : ∃ l, array (ofBudget (n + 1)) elements row r = .ok l := by
  have hslots : Outcome.traverse (fun p => elementCandidates (ofBudget (n + 1)) p row r) elements =
      .ok (elements.map fun p => (itemSlot p).candidates) := by
    rw [Outcome.traverse_eq_ok_iff, List.map_map]
    exact List.map_congr_left fun p hp => elementCandidates_succ hcap (hs p hp)
  rw [array, hslots]
  exact ⟨_, rfl⟩

end Variants

namespace Pattern

open Variants (loosened singles)

variable {elements : List Pattern} {q : Pattern} {row : Row} {r : Resolver}

/-- The variants of an array of scalars and repetitions are the array with repetitions of any number
and the array without its repetitions. -/
theorem hasVariant_array_iff (hcap : 0 < r.config.maxCombinations)
    (hs : (array elements).IsSequence) : (array elements).HasVariant row r q ↔
      q = .array (elements.map loosened) ∨ q = .array (singles elements) := by
  have hmem {n : Nat} {l : LazyList Pattern}
      (h : Variants.array (Variants.ofBudget n) elements row r = .ok l) :
      q ∈ l.toList ↔ q = .array (elements.map loosened) ∨ q = .array (singles elements) := by
    rw [Variants.eq_of_array hcap hs h, LazyList.toList_map, LazyList.toList_ofList, List.mem_map]
    simp only [Variants.mem_fillings_iff, or_and_right, exists_or, exists_eq_left, eq_comm]
  constructor
  · rintro ⟨n, l, h, hq⟩
    cases n with
    | zero => cases h
    | succ n => exact (hmem h).1 hq
  · intro hq
    obtain ⟨l, h⟩ := Variants.array_succ (n := 0) hcap hs row
    exact ⟨2, l, h, (hmem h).2 hq⟩

/-! ## What the variants keep -/

/-- The elements of a variant replace those of the array, so that it refines an array that may be
repeated at its end only, as often as one likes. -/
theorem refines_of_hasVariant (hr : r.config.mockMode = false)
    (hcap : 0 < r.config.maxCombinations) (hs : (array elements).IsSequence)
    (hnode : VariantNode (.array elements)) (hq : (array elements).HasVariant row r q) :
    q.Refines (.array elements) r := by
  have hplaced {pick : Pattern → Option Pattern}
      (h : ∀ p ∈ elements, Variants.Placed r p (pick p)) :
      (array (elements.filterMap pick)).Refines (.array elements) r := by
    have hpicks : List.Forall₂ (Variants.Placed r) elements (elements.map pick) :=
      List.forall₂_map_right_iff.2 (List.forall₂_same.2 h)
    have hrefines := Variants.refines_of_placed hr hnode hpicks
    rwa [List.filterMap_map] at hrefines
  rcases (hasVariant_array_iff hcap hs).1 hq with rfl | rfl
  · rw [← List.filterMap_eq_map]
    refine hplaced fun p _ => ?_
    cases p with
    | rest element min => exact .repeated (refines_refl element r)
    | _ => exact .single rfl rfl (refines_refl _ r)
  · rw [singles, ← List.filterMap_eq_filter]
    refine hplaced fun p _ => ?_
    cases p with
    | rest element min => exact .absent
    | _ => exact .single rfl rfl (refines_refl _ r)

/-- An element that is no repetition is kept. -/
theorem singles_cons (hq : q.isRest = false) (elements : List Pattern) :
    singles (q :: elements) = q :: singles elements := by
  rw [singles, List.filter_cons, hq]
  rfl

/-- A repetition is left out. -/
theorem singles_rest_cons (element : Pattern) (min : Nat) (elements : List Pattern) :
    singles (.rest element min :: elements) = singles elements :=
  rfl

/-- Leaving repetitions out leaves at most the elements before the closing rest. -/
theorem length_singles_le (elements : List Pattern) :
    (singles elements).length ≤ (splitRest elements).1.length := by
  fun_induction splitRest elements with
  | case1 => exact le_rfl
  | case2 => exact le_rfl
  | case3 p elements hne ih =>
    cases hp : p.isRest with
    | true =>
      rw [singles, List.filter_cons, hp]
      exact Nat.le_succ_of_le ih
    | false =>
      rw [singles_cons hp]
      exact Nat.succ_le_succ ih

/-- Without repetitions an array has no rest to split off. -/
theorem splitRest_singles (elements : List Pattern) :
    splitRest (singles elements) = (singles elements, none) :=
  splitRest_eq_self fun _ hp => Variants.isRest_of_mem_singles hp

/-- Without repetitions an array has at least its elements as items. -/
theorem leastItems_singles (elements : List Pattern) :
    (array (singles elements)).leastItems = (singles elements).length := by
  rw [leastItems, splitRest_singles]
  rfl

/-- With a repetition before its end, or with one that asks for something, an array has to be longer
than its single elements are. -/
theorem variantNode_of_leastItems_le (h : (array elements).leastItems ≤ (singles elements).length) :
    VariantNode (.array elements) := by
  induction elements with
  | nil => exact ⟨trivial, nofun⟩
  | cons p elements ih =>
    cases hp : p.isRest with
    | false =>
      rw [leastItems, splitRest_cons hp, singles_cons hp, List.length_cons, List.length_cons,
        Nat.add_right_comm] at h
      obtain ⟨hlast, hmin⟩ := ih (Nat.le_of_succ_le_succ h)
      refine ⟨(restLast_cons hp).2 hlast, ?_⟩
      rw [splitRest_cons hp]
      exact hmin
    | true =>
      cases p with
      | rest element min =>
        cases elements with
        | nil =>
          refine ⟨rfl, ?_⟩
          rintro _ _ ⟨rfl, rfl⟩
          exact Nat.le_zero.1 (Nat.le_of_add_left_le h)
        | cons q elements =>
          have hle := length_singles_le (q :: elements)
          rw [leastItems, singles_rest_cons] at h
          have hsplit : (splitRest (.rest element min :: q :: elements)).1 =
              .rest element min :: (splitRest (q :: elements)).1 := rfl
          rw [hsplit, List.length_cons] at h
          omega
      | _ => cases hp

/-- An array of scalars and repetitions accepts all that its variants accept if it repeats nothing
but its last element, and that without a minimum. Unless the bounds of a scalar are impossible, no
other array does. -/
theorem array_accepts_variants_iff (hr : r.config.mockMode = false)
    (hcap : 0 < r.config.maxCombinations) (hs : (array elements).IsSequence) (row : Row) :
    (VariantNode (.array elements) → ∀ q, (array elements).HasVariant row r q →
        ∀ v, q.check v r = some .success → (array elements).check v r = some .success) ∧
      ((∀ p ∈ elements, p.IsChecked) →
        (∀ q, (array elements).HasVariant row r q →
          ∀ v, q.check v r = some .success → (array elements).check v r = some .success) →
        VariantNode (.array elements)) := by
  constructor
  · intro hnode q hq v hv
    rw [← hs.bounded.accepts_iff_check hr (by decide)]
    by_contra hna
    have hfails := (hs.bounded.fails_check_iff hr (by decide)).2 hna
    exact refines_of_hasVariant hr hcap hs hnode hq v (accepts_of_check hv) ⟨_, hfails⟩
  · intro hc h
    -- The variant without repetitions has the shortest values.
    have hvariant : (array elements).HasVariant row r (.array (singles elements)) :=
      (hasVariant_array_iff hcap hs).2 (.inr rfl)
    have hsingles : (array (singles elements)).IsSequence :=
      fun p hp => hs p (List.mem_of_mem_filter hp)
    have hchecked : ∀ i p, (array (singles elements)).itemAt? i = some p → p.IsChecked := by
      intro i p hi
      rcases Option.or_eq_some_iff.1 hi with hi | ⟨-, hi⟩
      · exact hc p (List.mem_of_mem_filter (mem_of_mem_splitRest (List.mem_of_getElem? hi)))
      · rw [splitRest_singles] at hi
        cases hi
    have hasks := asksNoMore_of_accepts hs hsingles hchecked hr hr fun v ha => by
      rw [hsingles.bounded.accepts_iff_check hr (by decide)] at ha
      exact accepts_of_check (h _ hvariant v ha)
    exact variantNode_of_leastItems_le (leastItems_singles elements ▸ hasks.least)

/-- A number and any further ones. -/
def series : Pattern :=
  .array [.number, .rest .number 0]

/-- A series accepts what its variants accept. -/
theorem series_accepts_variants :
    Resolver.empty.config.mockMode = false ∧ 0 < Resolver.empty.config.maxCombinations ∧
      series.IsSequence ∧ VariantNode series ∧
      ∀ q, series.HasVariant .empty .empty q → ∀ v, q.check v .empty = some .success →
        series.check v .empty = some .success := by
  have hs : series.IsSequence := by
    intro p hp
    simp only [List.mem_cons, List.not_mem_nil, or_false] at hp
    rcases hp with rfl | rfl
    all_goals trivial
  have hcap : 0 < Resolver.empty.config.maxCombinations := by decide
  have hnode : VariantNode series := by
    refine ⟨rfl, ?_⟩
    rintro _ _ ⟨rfl, rfl⟩
    rfl
  exact ⟨rfl, hcap, hs, hnode, (array_accepts_variants_iff rfl hcap hs .empty).1 hnode⟩

/-- Without the numbers in front the text of a variant stands where the array wants an array. And a
variant does without the number that an array wants behind the first one. -/
theorem variants_accept_more :
    ((array [.rest .number 0, .string]).HasVariant .empty .empty (.array [.string]) ∧
      (array [.string]).check (.array [.string "m"]) .empty = some .success ∧
      Fails ((array [.rest .number 0, .string]).check (.array [.string "m"]) .empty)) ∧
    (array [.number, .rest .number 1]).HasVariant .empty .empty
        (.array [.number, .rest .number 0]) ∧
      (array [.number, .rest .number 0]).check (.array [.number .one]) .empty = some .success ∧
      Fails ((array [.number, .rest .number 1]).check (.array [.number .one]) .empty) :=
  ⟨⟨⟨2, _, rfl, List.mem_of_getElem? (i := 1) rfl⟩, rfl, _, rfl⟩,
    ⟨2, _, rfl, List.mem_of_getElem? (i := 0) rfl⟩, rfl, _, rfl⟩

end Pattern

end DataContract
