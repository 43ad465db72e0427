import DataContract.Proofs.Combinations.Odometer
import DataContract.Proofs.Keys
import DataContract.Proofs.Outcomes
import DataContract.Slots

/-!
# What selections are made of

Every combination and every filling takes one candidate from each list of candidates, whatever the
diagonal, the product and the cap leave out. Nothing is said here about which combinations and
fillings there are, only that there are some.
-/

namespace DataContract

namespace LazyList

variable {α β : Type} {l : LazyList α} {a : α} {b : β}

/-- An item of two joined lists belongs to one of them. -/
theorem mem_toList_append {rest : Unit → LazyList α} (h : a ∈ (l.append rest).toList) :
    a ∈ l.toList ∨ a ∈ (rest ()).toList := by
  induction l with
  | nil => exact .inr h
  | stalled => cases h
  | cons head tail ih =>
    rcases List.mem_cons.1 h with rfl | h
    · exact .inl List.mem_cons_self
    · exact (ih () h).imp_left (List.mem_cons_of_mem _)

/-- An item of a mapped list is the image of one. -/
theorem mem_toList_map {f : α → β} (h : b ∈ (l.map f).toList) : ∃ a ∈ l.toList, f a = b := by
  rw [toList_map] at h
  exact List.mem_map.1 h

/-- An item of a flattened list belongs to the list of one item. -/
theorem mem_toList_flatMap {f : α → LazyList β} (h : b ∈ (l.flatMap f).toList) :
    ∃ a ∈ l.toList, b ∈ (f a).toList := by
  induction l with
  | nil => cases h
  | stalled => cases h
  | cons head tail ih =>
    rcases mem_toList_append h with h | h
    · exact ⟨head, List.mem_cons_self, h⟩
    · obtain ⟨a, ha, hb⟩ := ih () h
      exact ⟨a, List.mem_cons_of_mem _ ha, hb⟩

/-- What is taken from a list belongs to it. -/
theorem mem_of_take {n : Nat} {xs : List α} (h : (l.take n).toList? = some xs) (ha : a ∈ xs) :
    a ∈ l.toList := by
  obtain ⟨-, hview⟩ := toList?_eq_some_iff.1 h
  rw [toList_take] at hview
  exact List.mem_of_mem_take (hview ▸ ha)

/-! ## Complete lists -/

@[simp] theorem isComplete_ofList (xs : List α) : (ofList xs).isComplete = true := by
  induction xs with
  | nil => rfl
  | cons a xs ih => exact ih

@[simp] theorem isComplete_map (f : α → β) (l : LazyList α) :
    (l.map f).isComplete = l.isComplete := by
  induction l with
  | nil => rfl
  | stalled => rfl
  | cons head tail ih => exact ih ()

@[simp] theorem isComplete_filter (p : α → Bool) (l : LazyList α) :
    (l.filter p).isComplete = l.isComplete := by
  induction l with
  | nil => rfl
  | stalled => rfl
  | cons head tail ih =>
    rw [filter]
    split <;> exact ih ()

/-- Two joined lists are complete when both are. -/
theorem isComplete_append {rest : Unit → LazyList α} :
    (l.append rest).isComplete = true ↔ l.isComplete = true ∧ (rest ()).isComplete = true := by
  induction l with
  | nil => exact ⟨fun h => ⟨rfl, h⟩, And.right⟩
  | stalled => exact ⟨nofun, nofun⟩
  | cons head tail ih => exact ih ()

/-- Two complete lists join to their items in order. -/
theorem toList?_append {rest : Unit → LazyList α} {xs ys : List α} (hl : l.toList? = some xs)
    (hrest : (rest ()).toList? = some ys) : (l.append rest).toList? = some (xs ++ ys) := by
  obtain ⟨hcl, rfl⟩ := toList?_eq_some_iff.1 hl
  obtain ⟨hcrest, rfl⟩ := toList?_eq_some_iff.1 hrest
  exact toList?_eq_some_iff.2 ⟨isComplete_append.2 ⟨hcl, hcrest⟩, toList_append hcl rest⟩

/-- Lists one after the other are complete if each of them is. -/
theorem isComplete_flatMap_ofList {f : α → LazyList β} {xs : List α} :
    ((ofList xs).flatMap f).isComplete = true ↔ ∀ a ∈ xs, (f a).isComplete = true := by
  induction xs with
  | nil => exact ⟨fun _ => nofun, fun _ => rfl⟩
  | cons a xs ih =>
    rw [List.forall_mem_cons, ofList, flatMap, isComplete_append, ih]

/-- Taking items keeps a complete list complete. -/
theorem isComplete_take {n : Nat} (h : l.isComplete = true) : (l.take n).isComplete = true := by
  induction l generalizing n with
  | nil => cases n <;> rfl
  | stalled => cases h
  | cons head tail ih =>
    cases n with
    | zero => rfl
    | succ n => exact ih () h

/-! ## Lists with a beginning -/

@[simp] theorem map_eq_nil {f : α → β} : l.map f = nil ↔ l = nil := by
  cases l <;> simp [map]

/-- Joining to a list that has items leaves it with items. -/
theorem append_ne_nil {rest : Unit → LazyList α} (h : l ≠ nil) : l.append rest ≠ nil := by
  cases l with
  | nil => exact absurd rfl h
  | stalled => exact nofun
  | cons head tail => exact nofun

@[simp] theorem ofList_eq_nil {xs : List α} : ofList xs = nil ↔ xs = [] := by
  cases xs <;> simp [ofList]

/-- Taking at least one item of a list that has items leaves one. -/
theorem take_ne_nil {n : Nat} (hn : 0 < n) (h : l ≠ nil) : l.take n ≠ nil := by
  obtain ⟨m, rfl⟩ := Nat.exists_eq_add_one.2 hn
  cases l with
  | nil => exact absurd rfl h
  | stalled => exact nofun
  | cons head tail => exact nofun

/-- The elements of a complete list that has a beginning are some. -/
theorem ne_nil_of_toList? {xs : List α} (hne : l ≠ nil) (h : l.toList? = some xs) : xs ≠ [] := by
  obtain ⟨hc, rfl⟩ := toList?_eq_some_iff.1 h
  cases l with
  | nil => exact absurd rfl hne
  | stalled => cases hc
  | cons head tail => exact List.cons_ne_nil _ _

end LazyList

/-! ## Repetitions that are dropped -/

section
variable {α : Type} [BEq α] {l : List α} {a : α}

/-- Lists are taken apart as `List.eraseDups` does it: what equals the first element is dropped from
the rest. -/
@[elab_as_elim]
theorem eraseDups_induction {motive : List α → Prop} (nil : motive [])
    (cons : ∀ a l, motive (l.filter fun b => !b == a) → motive (a :: l)) (l : List α) :
    motive l := by
  induction hn : l.length using Nat.strongRecOn generalizing l with
  | ind n ih =>
    cases l with
    | nil => exact nil
    | cons a l =>
      have hle := List.length_filter_le (fun b => !b == a) l
      rw [List.length_cons] at hn
      exact cons a l (ih _ (Nat.lt_of_le_of_lt hle (by omega)) _ rfl)

/-- Erasing duplicates keeps the order of what is left. -/
theorem eraseDups_sublist (l : List α) : l.eraseDups.Sublist l := by
  induction l using eraseDups_induction with
  | nil => exact .slnil
  | cons b l ih =>
    rw [List.eraseDups_cons]
    exact .cons_cons b (ih.trans List.filter_sublist)

/-- Erasing duplicates adds nothing. -/
theorem mem_of_mem_eraseDups (h : a ∈ l.eraseDups) : a ∈ l :=
  (eraseDups_sublist l).subset h

/-- An element that is dropped equals one that is left. -/
theorem exists_mem_eraseDups (h : a ∈ l) : ∃ b ∈ l.eraseDups, a = b ∨ (a == b) = true := by
  induction l using eraseDups_induction with
  | nil => cases h
  | cons b l ih =>
    rw [List.eraseDups_cons]
    rcases List.mem_cons.1 h with rfl | h
    · exact ⟨a, List.mem_cons_self, .inl rfl⟩
    · by_cases hab : (a == b) = true
      · exact ⟨b, List.mem_cons_self, .inr hab⟩
      · obtain ⟨c, hc, hac⟩ := ih (List.mem_filter.2 ⟨h, by simpa using hab⟩)
        exact ⟨c, List.mem_cons_of_mem _ hc, hac⟩

/-- What is left of a list after the first element stems from it or was left before. -/
theorem mem_of_mem_eraseRepsLoop {b : α} {l before : List α}
    (h : a ∈ List.eraseRepsBy.loop (· == ·) b l before) : a ∈ b :: l ∨ a ∈ before := by
  induction l generalizing b before with
  | nil => simpa [List.eraseRepsBy.loop, or_comm] using h
  | cons c l ih =>
    rw [List.eraseRepsBy.loop] at h
    split at h
    · rcases ih h with h | h
      · rcases List.mem_cons.1 h with rfl | h
        · exact .inl List.mem_cons_self
        · exact .inl (List.mem_cons_of_mem _ (List.mem_cons_of_mem _ h))
      · exact .inr h
    · rcases ih h with h | h
      · exact .inl (List.mem_cons_of_mem _ h)
      · rcases List.mem_cons.1 h with rfl | h
        · exact .inl List.mem_cons_self
        · exact .inr h

/-- Erasing repetitions adds nothing. -/
theorem mem_of_mem_eraseReps (h : a ∈ l.eraseReps) : a ∈ l := by
  cases l with
  | nil => exact h
  | cons b l =>
    rcases mem_of_mem_eraseRepsLoop h with h | h
    · exact h
    · cases h

/-- The first element is left, as are those that were left before. -/
theorem mem_eraseRepsLoop {b : α} {l before : List α} (h : a = b ∨ a ∈ before) :
    a ∈ List.eraseRepsBy.loop (· == ·) b l before := by
  induction l generalizing b before with
  | nil => simpa [List.eraseRepsBy.loop, or_comm] using h
  | cons c l ih =>
    rw [List.eraseRepsBy.loop]
    split
    · exact ih h
    · exact ih (.inr (List.mem_cons.2 h))

/-- An element that is dropped equals the one that was left before it. -/
theorem exists_mem_eraseRepsLoop {b : α} {l before : List α} (h : a ∈ l) :
    ∃ c ∈ List.eraseRepsBy.loop (· == ·) b l before, a = c ∨ (c == a) = true := by
  induction l generalizing b before with
  | nil => cases h
  | cons c l ih =>
    rw [List.eraseRepsBy.loop]
    split
    · next hbc =>
      rcases List.mem_cons.1 h with rfl | h
      · exact ⟨b, mem_eraseRepsLoop (.inl rfl), .inr hbc⟩
      · exact ih h
    · rcases List.mem_cons.1 h with rfl | h
      · exact ⟨a, mem_eraseRepsLoop (.inl rfl), .inl rfl⟩
      · exact ih h

/-- Every item is left, or one that compares equal to it. -/
theorem exists_mem_eraseReps (h : a ∈ l) : ∃ b ∈ l.eraseReps, a = b ∨ (b == a) = true := by
  cases l with
  | nil => cases h
  | cons b l =>
    rcases List.mem_cons.1 h with rfl | h
    · exact ⟨a, mem_eraseRepsLoop (.inl rfl), .inl rfl⟩
    · exact exists_mem_eraseRepsLoop h

/-- Erasing repetitions never empties a list. -/
theorem eraseReps_ne_nil (h : l ≠ []) : l.eraseReps ≠ [] := by
  obtain ⟨a, ha⟩ := List.exists_mem_of_ne_nil l h
  obtain ⟨b, hb, -⟩ := exists_mem_eraseReps ha
  exact List.ne_nil_of_mem hb

end

/-! ## Combinations -/

section
variable {α : Type} {candidates : List (List α)} {tuple : List α}

/-- The greatest of some numbers is at least each of them. -/
theorem le_foldl_max {l : List Nat} {start n : Nat} (h : n ∈ l ∨ n ≤ start) :
    n ≤ l.foldl max start := by
  induction l generalizing start with
  | nil => exact h.resolve_left List.not_mem_nil
  | cons m l ih =>
    refine ih ?_
    rcases h with h | h
    · rcases List.mem_cons.1 h with rfl | h
      · exact .inr (Nat.le_max_right _ _)
      · exact .inl h
    · exact .inr (Nat.le_trans h (Nat.le_max_left _ _))

/-- Where there is a list with elements, the longest list has some. -/
theorem longest_pos {l : List α} (hl : l ∈ candidates) (hne : l ≠ []) :
    0 < (candidates.map List.length).foldl max 0 :=
  Nat.lt_of_lt_of_le (List.length_pos_of_ne_nil hne)
    (le_foldl_max (.inl (List.mem_map_of_mem hl)))

/-- An index taken modulo the length always falls in a list that is not empty. -/
theorem exists_getElem?_mod {l : List α} (hne : l ≠ []) (i : Nat) :
    ∃ a ∈ l, l[i % l.length]? = some a := by
  have hlt := Nat.mod_lt i (List.length_pos_of_ne_nil hne)
  exact ⟨l[i % l.length], List.getElem_mem hlt, List.getElem?_eq_getElem hlt⟩

namespace CombinationSpec

/-- A tuple of the diagonal takes each of its values from the list of its place. -/
theorem forall₂_diagonalTuple (hne : ∀ l ∈ candidates, l ≠ []) (i : Nat) :
    List.Forall₂ (· ∈ ·) (diagonalTuple candidates i) candidates := by
  induction candidates with
  | nil => exact .nil
  | cons l candidates ih =>
    obtain ⟨a, ha, hi⟩ := exists_getElem?_mod (hne l List.mem_cons_self) i
    rw [diagonalTuple, List.filterMap_cons, hi]
    exact .cons ha (ih fun l hl => hne l (List.mem_cons_of_mem _ hl))

/-- The keys that have candidates. -/
def live (keyed : List (String × List α)) : List (String × List α) :=
  keyed.filter fun k => !k.2.isEmpty

/-- The keys that have candidates stay in their order. -/
theorem live_sublist (keyed : List (String × List α)) : (live keyed).Sublist keyed :=
  List.filter_sublist

/-- A key left over has candidates. -/
theorem ne_nil_of_mem_live {keyed : List (String × List α)} {k : String × List α}
    (hk : k ∈ live keyed) : k.2 ≠ [] := by
  simpa using (List.mem_filter.1 hk).2

/-- Where every key has candidates none is dropped. -/
theorem live_eq_self {keyed : List (String × List α)} (hne : ∀ k ∈ keyed, k.2 ≠ []) :
    live keyed = keyed :=
  List.filter_eq_self.2 fun k hk => by simpa using hne k hk

/-- A selection takes the keys that have candidates, and there is one if its cap is positive. -/
theorem ofCandidates_eq_ok_iff {keyed : List (String × List α)} {max : Nat}
    {spec : CombinationSpec α} : ofCandidates keyed max = .ok spec ↔
      0 < max ∧ spec = ⟨(live keyed).map (·.1), (live keyed).map (·.2), max⟩ := by
  unfold ofCandidates
  split
  · next hzero => simp [hzero]
  · next hpos => simp [live, Nat.pos_of_ne_zero hpos, eq_comm]

/-- Where every key has candidates no key is left out. -/
theorem eq_of_ofCandidates {keyed : List (String × List α)} {max : Nat} {spec : CombinationSpec α}
    (hne : ∀ k ∈ keyed, k.2 ≠ []) (h : ofCandidates keyed max = .ok spec) :
    spec = ⟨keyed.map (·.1), keyed.map (·.2), max⟩ := by
  rw [(ofCandidates_eq_ok_iff.1 h).2, live_eq_self hne]

variable [BEq α] {spec : CombinationSpec α} {combination : List (String × α)}

/-- The tuples of a selection without its cap: the diagonal and then the product without it. -/
def emitted (spec : CombinationSpec α) : List (List α) :=
  spec.diagonal ++ (nestedProduct spec.candidates).filter fun tuple => !spec.diagonal.contains tuple

/-- A tuple of a selection has a candidate of every key. -/
theorem mem_product_of_mem_emitted (hlen : spec.keys.length = spec.candidates.length)
    (hne : ∀ l ∈ spec.candidates, l ≠ []) (h : tuple ∈ spec.emitted) :
    tuple ∈ nestedProduct spec.candidates := by
  rcases List.mem_append.1 h with h | h
  · rw [diagonal] at h
    split at h
    · next hempty =>
      obtain rfl := List.mem_singleton.1 h
      rw [List.isEmpty_iff.1 hempty] at hlen
      rw [List.eq_nil_of_length_eq_zero hlen.symm]
      exact List.mem_singleton.2 rfl
    · obtain ⟨i, -, rfl⟩ := List.mem_map.1 (mem_of_mem_eraseDups h)
      exact mem_nestedProduct.2 (forall₂_diagonalTuple hne i)
  · exact List.mem_of_mem_filter h

/-- The tuples of a selection take a candidate from each list, which all have some. -/
theorem forall₂_of_mem_take_emitted {keyed : List (String × List α)} {cap n : Nat}
    (hne : ∀ k ∈ keyed, k.2 ≠ [])
    (h : tuple ∈ (emitted ⟨keyed.map (·.1), keyed.map (·.2), cap⟩).take n) :
    List.Forall₂ (· ∈ ·) tuple (keyed.map (·.2)) := by
  have hlists : ∀ l ∈ keyed.map (·.2), l ≠ [] := List.forall_mem_map.2 hne
  exact mem_nestedProduct.1
    (mem_product_of_mem_emitted (by simp) hlists (List.mem_of_mem_take h))

/-- The combinations are those emitted in the two phases, cut at the cap and assigned to the
keys. -/
theorem toList?_combinations_eq_emitted (hlen : spec.keys.length = spec.candidates.length)
    (hne : ∀ l ∈ spec.candidates, l ≠ []) :
    spec.combinations.toList? = some ((spec.emitted.take spec.maxCombinations).map spec.assign) :=
  toList?_combinations hlen hne

/-- A combination takes a candidate of every key. -/
theorem exists_of_mem_combinations (hlen : spec.keys.length = spec.candidates.length)
    (hne : ∀ l ∈ spec.candidates, l ≠ []) (h : combination ∈ spec.combinations.toList) :
    ∃ tuple, combination = spec.assign tuple ∧
      List.Forall₂ (· ∈ ·) tuple spec.candidates := by
  obtain ⟨-, hall⟩ := LazyList.toList?_eq_some_iff.1 (toList?_combinations_eq_emitted hlen hne)
  rw [hall] at h
  obtain ⟨tuple, htuple, rfl⟩ := List.mem_map.1 h
  exact ⟨tuple, rfl,
    mem_nestedProduct.1 (mem_product_of_mem_emitted hlen hne (List.mem_of_mem_take htuple))⟩

/-- What a combination takes is among the candidates that there were for some key. -/
theorem exists_of_mem_combination {keyed : List (String × List α)} {max : Nat} {key : String}
    {a : α} (hspec : ofCandidates keyed max = .ok spec)
    (h : combination ∈ spec.combinations.toList) (ha : (key, a) ∈ combination) :
    ∃ k ∈ keyed, a ∈ k.2 := by
  obtain ⟨-, rfl⟩ := ofCandidates_eq_ok_iff.1 hspec
  have hne : ∀ l ∈ (live keyed).map (·.2), l ≠ [] :=
    List.forall_mem_map.2 fun k hk => ne_nil_of_mem_live hk
  obtain ⟨tuple, rfl, htuple⟩ := exists_of_mem_combinations (by simp) hne h
  have ha : a ∈ tuple := (List.of_mem_zip (Fields.mem_of_mem_ofPairs ha)).2
  obtain ⟨l, hl, hal⟩ := exists_right_of_forall₂ htuple ha
  obtain ⟨k, hk, rfl⟩ := List.mem_map.1 hl
  exact ⟨k, (live_sublist keyed).mem hk, hal⟩

/-- The first phase emits at least one tuple where every key has candidates. -/
theorem diagonal_ne_nil (hlen : spec.keys.length = spec.candidates.length)
    (hne : ∀ l ∈ spec.candidates, l ≠ []) : spec.diagonal ≠ [] := by
  rw [diagonal]
  split
  · exact List.cons_ne_nil _ _
  · next hkeys =>
    cases hc : spec.candidates with
    | nil =>
      rw [hc] at hlen
      exact absurd (List.isEmpty_iff.2 (List.eq_nil_of_length_eq_zero hlen)) hkeys
    | cons l rest =>
      have hmem : l ∈ spec.candidates := hc ▸ List.mem_cons_self
      obtain ⟨m, hm⟩ := Nat.exists_eq_add_one.2 (longest_pos hmem (hne l hmem))
      rw [longest, hm, List.range_succ_eq_map, List.map_cons, List.eraseDups_cons]
      exact List.cons_ne_nil _ _

/-- There is a combination. -/
theorem combinations_ne_nil (hlen : spec.keys.length = spec.candidates.length)
    (hne : ∀ l ∈ spec.candidates, l ≠ []) (hmax : 0 < spec.maxCombinations) :
    spec.combinations ≠ .nil := by
  intro hnil
  have hall := toList?_combinations_eq_emitted hlen hne
  rw [hnil, LazyList.toList?, Option.some_inj, eq_comm, List.map_eq_nil_iff,
    List.take_eq_nil_iff] at hall
  rcases hall with hzero | hempty
  · omega
  · exact diagonal_ne_nil hlen hne (List.append_eq_nil_iff.1 hempty).1

end CombinationSpec

/-! ## Fillings -/

namespace Slots

variable {slots : List (List (Option α))} {filling : List α}

/-- A row takes one entry of every slot and keeps those that are present. -/
theorem exists_row (hne : ∀ slot ∈ slots, slot ≠ []) (i : Nat) :
    ∃ picks, List.Forall₂ (· ∈ ·) picks slots ∧ row slots i = picks.filterMap id := by
  induction slots with
  | nil => exact ⟨[], .nil, rfl⟩
  | cons slot slots ih =>
    obtain ⟨pick, hpick, hi⟩ := exists_getElem?_mod (hne slot List.mem_cons_self) i
    obtain ⟨picks, hpicks, hrow⟩ := ih fun slot hs => hne slot (List.mem_cons_of_mem _ hs)
    refine ⟨pick :: picks, .cons hpick hpicks, ?_⟩
    rw [row, List.filterMap_cons, hi, List.filterMap_cons]
    cases pick with
    | none => exact hrow
    | some a => exact congrArg (a :: ·) hrow

variable [BEq α]

/-- A filling takes a candidate of every slot, and leaves out those that are absent. -/
theorem exists_of_mem_fillings (hne : ∀ slot ∈ slots, slot ≠ [])
    (h : filling ∈ fillings slots) :
    ∃ picks, List.Forall₂ (· ∈ ·) picks slots ∧ filling = picks.filterMap id := by
  have hlive : slots.filter (fun slot => !slot.isEmpty) = slots :=
    List.filter_eq_self.2 fun slot hs => by simpa using hne slot hs
  unfold fillings at h
  dsimp only at h
  rw [hlive] at h
  split at h
  · next hzero =>
    obtain rfl := List.mem_singleton.1 h
    cases slots with
    | nil => exact ⟨[], .nil, rfl⟩
    | cons slot slots =>
      have hmem : slot ∈ slot :: slots := List.mem_cons_self
      have := longest_pos hmem (hne slot hmem)
      omega
  · obtain ⟨i, -, rfl⟩ := List.mem_map.1 (mem_of_mem_eraseDups h)
    exact exists_row hne i

/-- What a filling takes is among the candidates of some slot. -/
theorem exists_of_mem_filling {a : α} (h : filling ∈ fillings slots) (ha : a ∈ filling) :
    ∃ slot ∈ slots, some a ∈ slot := by
  unfold fillings at h
  dsimp only at h
  split at h
  · cases List.mem_singleton.1 h
    cases ha
  · obtain ⟨i, -, rfl⟩ := List.mem_map.1 (mem_of_mem_eraseDups h)
    obtain ⟨slot, hslot, hpick⟩ := List.mem_filterMap.1 ha
    refine ⟨slot, List.mem_of_mem_filter hslot, ?_⟩
    exact List.mem_of_getElem? (Option.join_eq_some_iff.1 hpick)

/-- There is a filling. -/
theorem fillings_ne_nil (slots : List (List (Option α))) : fillings slots ≠ [] := by
  unfold fillings
  dsimp only
  split
  · exact List.cons_ne_nil _ _
  · next hpos =>
    obtain ⟨m, hm⟩ := Nat.exists_eq_add_one.2 (Nat.pos_of_ne_zero hpos)
    rw [hm, List.range_succ_eq_map, List.map_cons, List.eraseDups_cons]
    exact List.cons_ne_nil _ _

end Slots

end

end DataContract
