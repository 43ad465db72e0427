import DataContract.Combination
import Mathlib.Data.List.Forall2

/-!
# The odometer walks the product

What a selection emits, read off its state: the rest of the diagonal, then what the odometer has
still to walk without what the diagonal has, up to the cap. `Combinations.pending` is that list. A
step takes from it exactly what the step emits (`pending_of_step`), so a run that has enough steps
emits all of it (`toList?_run`). From the start that is the diagonal and then the whole product in
nested order (`CombinationSpec.toList?_combinations`).
-/

namespace DataContract

/-- A complete list is complete under a map. -/
theorem LazyList.toList?_map {α β : Type} (f : α → β) (l : LazyList α) :
    (l.map f).toList? = l.toList?.map (List.map f) := by
  induction l with
  | nil => rfl
  | stalled => rfl
  | cons head tail ih =>
    rw [map, toList?, toList?, ih ()]
    cases (tail ()).toList? <;> rfl

section
variable {α : Type} {candidates : List (List α)} {positions next : List Nat} {tuple : List α}

/-- The tuples with one candidate of every list, the first list outermost. -/
def nestedProduct : List (List α) → List (List α)
  | [] => [[]]
  | list :: candidates => list.flatMap fun a => (nestedProduct candidates).map (a :: ·)

/-- A tuple is in the product exactly if it takes a candidate from each list. -/
theorem mem_nestedProduct :
    tuple ∈ nestedProduct candidates ↔ List.Forall₂ (· ∈ ·) tuple candidates := by
  induction candidates generalizing tuple with
  | nil => simp [nestedProduct]
  | cons list candidates ih =>
    simp only [nestedProduct, List.mem_flatMap, List.mem_map, ih]
    constructor
    · rintro ⟨a, ha, rest, hrest, rfl⟩
      exact .cons ha hrest
    · rintro (_ | ⟨ha, hrest⟩)
      exact ⟨_, ha, _, hrest, rfl⟩

/-- The product is as long as the lengths of the lists multiplied. -/
theorem length_nestedProduct (candidates : List (List α)) :
    (nestedProduct candidates).length = (candidates.map List.length).foldr (· * ·) 1 := by
  induction candidates with
  | nil => rfl
  | cons list candidates ih =>
    simp [nestedProduct, List.length_flatMap, ih]

namespace Combinations

/-! ## Positions -/

/-- There is a candidate at every position. -/
def InRange (candidates : List (List α)) (positions : List Nat) : Prop :=
  List.Forall₂ (fun list i => i < list.length) candidates positions

/-- The tuples of the product from the positions on. -/
def tuplesFrom : List (List α) → List Nat → List (List α)
  | list :: candidates, i :: positions =>
    match list.drop i with
    | [] => []
    | a :: later =>
      (tuplesFrom candidates positions).map (a :: ·) ++
        later.flatMap fun b => (nestedProduct candidates).map (b :: ·)
  | _, _ => [[]]

/-- The tuples that an odometer has still to walk. -/
def walk (candidates : List (List α)) : Option (List Nat) → List (List α)
  | none => []
  | some positions => tuplesFrom candidates positions

/-- From a position on there are the tuples with its candidate, and then those with the later
ones. -/
theorem tuplesFrom_cons {list : List α} {i : Nat} (hi : i < list.length) :
    tuplesFrom (list :: candidates) (i :: positions) =
      (tuplesFrom candidates positions).map (list[i] :: ·) ++
        (list.drop (i + 1)).flatMap fun b => (nestedProduct candidates).map (b :: ·) := by
  rw [tuplesFrom, List.drop_eq_getElem_cons hi]

/-- The tuples with the candidates from a position on are those with its candidate and those with
the later ones. -/
theorem flatMap_drop {list : List α} {i : Nat} (hi : i < list.length) :
    ((list.drop i).flatMap fun b => (nestedProduct candidates).map (b :: ·)) =
      (nestedProduct candidates).map (list[i] :: ·) ++
        (list.drop (i + 1)).flatMap fun b => (nestedProduct candidates).map (b :: ·) := by
  rw [List.drop_eq_getElem_cons hi, List.flatMap_cons]

/-- Where there is a candidate at some positions there is one at the first ones. -/
theorem inRange_zeros (h : InRange candidates positions) :
    InRange candidates (positions.map fun _ => 0) := by
  induction h with
  | nil => exact .nil
  | cons hi _ ih => exact .cons (Nat.zero_lt_of_lt hi) ih

/-- From the first positions on there is the whole product. -/
theorem tuplesFrom_zeros (h : InRange candidates positions) :
    tuplesFrom candidates (positions.map fun _ => 0) = nestedProduct candidates := by
  induction h with
  | nil => rfl
  | @cons list i candidates positions hi _ ih =>
    have hpos := Nat.zero_lt_of_lt hi
    rw [List.map_cons, tuplesFrom_cons hpos, ih, ← flatMap_drop hpos, List.drop_zero,
      nestedProduct]

/-- The odometer stays in range. -/
theorem inRange_of_advance (h : InRange candidates positions)
    (hnext : advance candidates positions = some next) : InRange candidates next := by
  induction h generalizing next with
  | nil => cases hnext
  | @cons list i candidates positions hi htail ih =>
    rw [advance] at hnext
    cases hrest : advance candidates positions with
    | some rest =>
      rw [hrest] at hnext
      cases hnext
      exact .cons hi (ih hrest)
    | none =>
      rw [hrest] at hnext
      obtain ⟨hlt, hnext⟩ := Option.ite_none_right_eq_some.1 hnext
      cases hnext
      exact .cons hlt (inRange_zeros htail)

/-- The tuples from the positions on are the one at the positions and those from the next positions
on. The carry is in the last case: a list at its end starts over, which is the whole product of the
lists behind, under the next candidate of the list before. -/
theorem tuplesFrom_eq_cons (h : InRange candidates positions) :
    tuplesFrom candidates positions =
      tupleAt candidates positions :: walk candidates (advance candidates positions) := by
  induction h with
  | nil => rfl
  | @cons list i candidates positions hi htail ih =>
    have htuple : tupleAt (list :: candidates) (i :: positions) =
        list[i] :: tupleAt candidates positions := by
      simp [tupleAt, hi]
    rw [tuplesFrom_cons hi, ih, htuple, List.map_cons, List.cons_append, advance]
    congr 1
    cases advance candidates positions with
    | some next => exact (tuplesFrom_cons hi).symm
    | none =>
      by_cases hlt : i + 1 < list.length
      · simp only [hlt, if_true, walk, List.map_nil, List.nil_append]
        rw [tuplesFrom_cons hlt, tuplesFrom_zeros htail, ← flatMap_drop hlt]
      · simp only [hlt, if_false, walk, List.map_nil, List.nil_append]
        rw [List.drop_eq_nil_of_le (Nat.le_of_not_lt hlt), List.flatMap_nil]

/-! ## Steps -/

variable [BEq α] {c c' : Combinations α} {emission : Option (List α)}

/-- The odometer stands at candidates of the selection. -/
def OnTrack (c : Combinations α) : Prop :=
  ∀ positions, c.odometer = some positions → InRange c.spec.candidates positions

/-- The tuples that are still to be emitted. -/
def pending (c : Combinations α) : List (List α) :=
  (c.prioritized.drop c.nextPrioritized ++
    (walk c.spec.candidates c.odometer).filter fun tuple => !c.prioritized.contains tuple).take
      (c.spec.maxCombinations - c.emitted)

/-- The tuples that are still to be looked at. -/
def work (c : Combinations α) : Nat :=
  (c.prioritized.length - c.nextPrioritized) + (walk c.spec.candidates c.odometer).length

/-- What a step can do: emit a tuple of the diagonal, pass over the tuple at the odometer, or emit
it. -/
theorem step_cases (h : c.step = some (emission, c')) :
    c.emitted < c.spec.maxCombinations ∧
      ((∃ tuple, c.prioritized[c.nextPrioritized]? = some tuple ∧ emission = some tuple ∧
          c' = { c with nextPrioritized := c.nextPrioritized + 1, emitted := c.emitted + 1 }) ∨
        (∃ positions, c.prioritized.length ≤ c.nextPrioritized ∧ c.odometer = some positions ∧
          ((c.prioritized.contains (tupleAt c.spec.candidates positions) = true ∧
              emission = none ∧
              c' = { c with odometer := advance c.spec.candidates positions }) ∨
            (c.prioritized.contains (tupleAt c.spec.candidates positions) = false ∧
              emission = some (tupleAt c.spec.candidates positions) ∧
              c' = { c with
                odometer := advance c.spec.candidates positions, emitted := c.emitted + 1 })))) := by
  unfold step at h
  split at h
  · cases h
  · next hcap =>
    refine ⟨Nat.lt_of_not_le hcap, ?_⟩
    split at h
    · next tuple htuple =>
      cases h
      exact .inl ⟨tuple, htuple, rfl, rfl⟩
    · next hend =>
      split at h
      · cases h
      · next positions hpositions =>
        refine .inr ⟨positions, List.getElem?_eq_none_iff.1 hend, hpositions, ?_⟩
        dsimp only at h
        split at h
        · next hcontains =>
          cases h
          exact .inl ⟨hcontains, rfl, rfl⟩
        · next hcontains =>
          cases h
          exact .inr ⟨Bool.eq_false_iff.2 hcontains, rfl, rfl⟩

/-- Where there is no step everything has been emitted. -/
theorem pending_of_step_eq_none (h : c.step = none) : c.pending = [] := by
  unfold step at h
  split at h
  · next hcap => rw [pending, Nat.sub_eq_zero_of_le hcap, List.take_zero]
  · split at h
    · cases h
    · next hend =>
      split at h
      · next hodometer =>
        rw [pending, hodometer, List.drop_eq_nil_of_le (List.getElem?_eq_none_iff.1 hend), walk,
          List.filter_nil, List.append_nil, List.take_nil]
      · dsimp only at h
        split at h <;> cases h

/-- A step keeps a selection on track. -/
theorem onTrack_of_step (hc : c.OnTrack) (h : c.step = some (emission, c')) : c'.OnTrack := by
  obtain ⟨-, ⟨tuple, -, -, rfl⟩ | ⟨positions, -, hpositions, ⟨-, -, rfl⟩ | ⟨-, -, rfl⟩⟩⟩ :=
    step_cases h
  · exact hc
  · exact fun _ hnext => inRange_of_advance (hc _ hpositions) hnext
  · exact fun _ hnext => inRange_of_advance (hc _ hpositions) hnext

/-- A step emits what was pending first, or passes over what was not pending. -/
theorem pending_of_step (hc : c.OnTrack) (h : c.step = some (emission, c')) :
    c.pending = emission.toList ++ c'.pending := by
  obtain ⟨hcap, hstep⟩ := step_cases h
  obtain ⟨left, hleft⟩ := Nat.exists_eq_add_one.2 (Nat.sub_pos_of_lt hcap)
  have hleft' : c.spec.maxCombinations - (c.emitted + 1) = left := by omega
  obtain ⟨tuple, htuple, rfl, rfl⟩ | ⟨positions, hend, hpositions, hemission⟩ := hstep
  · obtain ⟨hlt, rfl⟩ := List.getElem?_eq_some_iff.1 htuple
    simp only [pending, hleft, hleft']
    rw [List.drop_eq_getElem_cons hlt, List.cons_append, List.take_succ_cons]
    rfl
  · have hwalk := tuplesFrom_eq_cons (hc _ hpositions)
    obtain ⟨hcontains, rfl, rfl⟩ | ⟨hcontains, rfl, rfl⟩ := hemission
    · simp only [pending, hpositions]
      rw [walk, hwalk, List.filter_cons_of_neg (by simp [hcontains])]
      rfl
    · simp only [pending, hpositions, hleft, hleft', List.drop_eq_nil_of_le hend, List.nil_append]
      rw [walk, hwalk, List.filter_cons_of_pos (by simp [hcontains]), List.take_succ_cons]
      rfl

/-- A step leaves less to do, so a run with enough steps ends. -/
theorem work_lt_of_step (hc : c.OnTrack) (h : c.step = some (emission, c')) : c'.work < c.work := by
  obtain ⟨-, ⟨tuple, htuple, -, rfl⟩ | ⟨positions, -, hpositions, hemission⟩⟩ := step_cases h
  · obtain ⟨hlt, -⟩ := List.getElem?_eq_some_iff.1 htuple
    simp only [work]
    omega
  · have hwalk := congrArg List.length (tuplesFrom_eq_cons (hc _ hpositions))
    rw [List.length_cons] at hwalk
    obtain ⟨-, -, rfl⟩ | ⟨-, -, rfl⟩ := hemission
    · simp only [work, hpositions, walk] at hwalk ⊢
      omega
    · simp only [work, hpositions, walk] at hwalk ⊢
      omega

/-- A run with more steps than there is work emits what is pending, and comes to the end. -/
theorem toList?_run {n : Nat} (hc : c.OnTrack) (hn : c.work < n) :
    (c.run n).toList? = some c.pending := by
  induction n generalizing c with
  | zero => omega
  | succ n ih =>
    rw [run]
    cases hstep : c.step with
    | none => rw [pending_of_step_eq_none hstep]; rfl
    | some result =>
      obtain ⟨emission, c'⟩ := result
      have hrest : (c'.run n).toList? = some c'.pending :=
        ih (onTrack_of_step hc hstep) (by have := work_lt_of_step hc hstep; omega)
      rw [pending_of_step hc hstep]
      cases emission with
      | none => exact hrest
      | some tuple => exact congrArg (Option.map (tuple :: ·)) hrest

end Combinations

/-! ## Selections -/

namespace CombinationSpec

variable {spec : CombinationSpec α}

/-- Without keys the one tuple of the product is on the diagonal, and there is nothing to walk. -/
theorem walk_start_of_eq_nil [BEq α] (hkeys : spec.keys = []) :
    Combinations.walk spec.candidates (Combinations.start spec).odometer = [] := by
  rw [Combinations.start, if_pos (by simp [hkeys])]
  rfl

-- What `ofCandidates` gives: every key has a list, and no list is empty.
variable (hlen : spec.keys.length = spec.candidates.length)
  (hne : ∀ list ∈ spec.candidates, list ≠ [])

include hlen hne

/-- The odometer starts at the first tuple of the product. -/
theorem inRange_start : Combinations.InRange spec.candidates (spec.keys.map fun _ => 0) := by
  refine List.forall₂_iff_get.2 ⟨by rw [List.length_map, hlen], fun i hi _ => ?_⟩
  simpa using List.length_pos_of_ne_nil (hne _ (List.get_mem _ ⟨i, hi⟩))

variable [BEq α]

/-- A selection starts on track. -/
theorem onTrack_start : (Combinations.start spec).OnTrack := by
  intro positions hpositions
  obtain ⟨-, hzeros⟩ := Option.ite_none_left_eq_some.1 hpositions
  cases hzeros
  exact inRange_start hlen hne

/-- With keys the odometer has the whole product before it. -/
theorem walk_start (hkeys : spec.keys ≠ []) :
    Combinations.walk spec.candidates (Combinations.start spec).odometer =
      nestedProduct spec.candidates := by
  have hzeros := Combinations.tuplesFrom_zeros (inRange_start hlen hne)
  rw [List.map_map] at hzeros
  rw [Combinations.start, if_neg (by simpa using hkeys)]
  exact hzeros

/-- At the start there is the diagonal and then the product without it, up to the cap. -/
theorem pending_start :
    (Combinations.start spec).pending = (spec.diagonal ++
      (nestedProduct spec.candidates).filter fun tuple => !spec.diagonal.contains tuple).take
        spec.maxCombinations := by
  have hstart : (Combinations.start spec).pending = (spec.diagonal ++
      (Combinations.walk spec.candidates (Combinations.start spec).odometer).filter
        fun tuple => !spec.diagonal.contains tuple).take spec.maxCombinations := rfl
  rw [hstart]
  by_cases hkeys : spec.keys = []
  · have hcandidates : spec.candidates = [] := by
      rw [hkeys] at hlen
      exact List.eq_nil_of_length_eq_zero hlen.symm
    rw [walk_start_of_eq_nil hkeys, hcandidates]
    simp [nestedProduct, diagonal, hkeys]
  · rw [walk_start hlen hne hkeys]

/-- At the start there is no more to do than the diagonal and the product have tuples. -/
theorem work_start_le :
    (Combinations.start spec).work ≤ spec.diagonal.length + spec.total := by
  refine Nat.add_le_add_left ?_ _
  by_cases hkeys : spec.keys = []
  · exact (congrArg List.length (walk_start_of_eq_nil hkeys)) ▸ Nat.zero_le _
  · have hlength := congrArg List.length (walk_start hlen hne hkeys)
    rw [length_nestedProduct] at hlength
    exact Nat.le_of_eq hlength

/-- A selection is the diagonal and then the product without it, up to the cap. -/
theorem toList?_combinations :
    spec.combinations.toList? = some (((spec.diagonal ++
      (nestedProduct spec.candidates).filter fun tuple => !spec.diagonal.contains tuple).take
        spec.maxCombinations).map spec.assign) := by
  have hwork : (Combinations.start spec).work < spec.diagonal.length + spec.total + 1 :=
    Nat.lt_succ_of_le (work_start_le hlen hne)
  have hrun := Combinations.toList?_run (onTrack_start hlen hne) hwork
  rw [pending_start hlen hne] at hrun
  exact (LazyList.toList?_map _ _).trans (congrArg (Option.map (List.map spec.assign)) hrun)

end CombinationSpec

end

end DataContract
