import DataContract.Proofs.Selections
import Mathlib.Algebra.BigOperators.Group.List.Basic
import Mathlib.Data.List.Nodup

/-!
# The two phases of a selection

For candidates without repetitions a selection is described without its walk: the first tuples of
the diagonal, followed by the nested product without the diagonal. The diagonal has no repetitions
either, because the longest list is on it position by position (`distinct_diagonalTuples`). So the
two phases together are a permutation of the product (`perm_of_subset`), and what a selection emits
is counted, told apart and placed by what is known of the product.
-/

namespace DataContract

/-! ## Lists without equal elements -/

section
variable {α : Type} [BEq α]

/-- Equality of lists is an equivalence if equality of their elements is. -/
instance equivBEqOfElements [EquivBEq α] : EquivBEq (List α) where
  rfl {l} := by
    induction l with
    | nil => rfl
    | cons a l ih => rw [List.cons_beq_cons, BEq.rfl, ih]; rfl
  symm {l l'} h := by
    induction l generalizing l' with
    | nil => cases l' with
      | nil => rfl
      | cons b l' => cases h
    | cons a l ih => cases l' with
      | nil => cases h
      | cons b l' =>
        rw [List.cons_beq_cons, Bool.and_eq_true] at h ⊢
        exact ⟨BEq.symm h.1, ih h.2⟩
  trans {l l' l''} h h' := by
    induction l generalizing l' l'' with
    | nil => cases l' with
      | nil => exact h'
      | cons b l' => cases h
    | cons a l ih => cases l' with
      | nil => cases h
      | cons b l' => cases l'' with
        | nil => cases h'
        | cons c l'' =>
          rw [List.cons_beq_cons, Bool.and_eq_true] at h h' ⊢
          exact ⟨BEq.trans h.1 h'.1, ih h.2 h'.2⟩

/-- No two elements are equal. -/
def Distinct (l : List α) : Prop :=
  l.Pairwise fun a b => (a == b) = false

variable [EquivBEq α] {l part : List α} {a b : α}

/-- A list whose elements are told apart has no repetition. -/
theorem Distinct.nodup (h : Distinct l) : l.Nodup := by
  refine h.imp ?_
  rintro a _ hne rfl
  rw [BEq.rfl] at hne
  cases hne

/-- Equal elements are the same. -/
theorem Distinct.eq_of_beq (h : Distinct l) (ha : a ∈ l) (hb : b ∈ l) (hab : (a == b) = true) :
    a = b := by
  induction l with
  | nil => cases ha
  | cons c l ih =>
    obtain ⟨hc, hl⟩ := List.pairwise_cons.1 h
    cases ha with
    | head =>
      cases hb with
      | head => rfl
      | tail _ hb => exact absurd hab (Bool.eq_false_iff.1 (hc b hb))
    | tail _ ha =>
      cases hb with
      | head => exact absurd (BEq.symm hab) (Bool.eq_false_iff.1 (hc a ha))
      | tail _ hb => exact ih hl ha hb

/-- Where there are no repetitions none is dropped. -/
theorem Distinct.eraseDups_eq (h : Distinct l) : l.eraseDups = l := by
  induction l with
  | nil => rfl
  | cons a l ih =>
    obtain ⟨ha, hl⟩ := List.pairwise_cons.1 h
    have hrest : (l.filter fun b => !b == a) = l :=
      List.filter_eq_self.2 fun b hb => by rw [BEq.symm_false (ha b hb)]; rfl
    rw [List.eraseDups_cons, hrest, ih hl]

/-- What is taken out of a list can be put in front of the rest. -/
theorem perm_of_subset (hpart : Distinct part) (hl : Distinct l) (hsub : ∀ a ∈ part, a ∈ l) :
    (part ++ l.filter fun a => !part.contains a).Perm l := by
  have hperm : part.Perm (l.filter part.contains) := by
    rw [List.perm_ext_iff_of_nodup hpart.nodup (hl.nodup.filter _)]
    intro a
    rw [List.mem_filter, List.contains_iff_exists_mem_beq]
    constructor
    · exact fun ha => ⟨hsub a ha, a, ha, BEq.rfl⟩
    · rintro ⟨ha, b, hb, hab⟩
      exact hl.eq_of_beq ha (hsub b hb) hab ▸ hb
  exact (hperm.append_right _).trans (List.filter_append_perm part.contains l)

end

section
variable {α : Type} {candidates : List (List α)} {l : List α} {i j : Nat}

/-! ## The tuples of both phases -/

/-- Candidate `i` of every list, starting over in shorter lists, for every `i` below the length of
the longest list. -/
def diagonalTuples (candidates : List (List α)) : List (List α) :=
  (List.range ((candidates.map List.length).foldl max 0)).map fun i =>
    candidates.filterMap fun list => list[i % list.length]?

/-- These are the tuples that a selection begins with. -/
theorem diagonalTuples_eq_map (candidates : List (List α)) :
    diagonalTuples candidates =
      (List.range ((candidates.map List.length).foldl max 0)).map
        (CombinationSpec.diagonalTuple candidates) :=
  rfl

/-- On the diagonal every list is gone through again from its start. -/
theorem diagonalTuple_cons (candidates : List (List α)) (hl : l ≠ []) (i : Nat) :
    ∃ (hi : i % l.length < l.length), CombinationSpec.diagonalTuple (l :: candidates) i =
      l[i % l.length] :: CombinationSpec.diagonalTuple candidates i := by
  have hi := Nat.mod_lt i (List.length_pos_of_ne_nil hl)
  refine ⟨hi, ?_⟩
  rw [CombinationSpec.diagonalTuple, List.filterMap_cons, List.getElem?_eq_getElem hi]
  rfl

/-- The longest length is the length of a list, unless it is zero. -/
theorem foldl_max_eq_or_mem (lengths : List Nat) (start : Nat) :
    lengths.foldl max start = start ∨ lengths.foldl max start ∈ lengths := by
  induction lengths generalizing start with
  | nil => exact .inl rfl
  | cons n lengths ih =>
    rcases ih (max start n) with h | h
    · rw [List.foldl_cons, h]
      rcases Nat.le_total start n with hle | hle
      · exact .inr (by simp [Nat.max_eq_right hle])
      · exact .inl (Nat.max_eq_left hle)
    · exact .inr (List.mem_cons_of_mem _ h)

/-- The diagonal is part of the product. -/
theorem diagonalTuples_subset (hne : ∀ l ∈ candidates, l ≠ []) :
    ∀ tuple ∈ diagonalTuples candidates, tuple ∈ nestedProduct candidates := by
  intro tuple htuple
  rw [diagonalTuples_eq_map] at htuple
  obtain ⟨i, -, rfl⟩ := List.mem_map.1 htuple
  exact mem_nestedProduct.2 (CombinationSpec.forall₂_diagonalTuple hne i)

variable [BEq α]

/-- Where one list has different candidates at two positions the tuples of the diagonal differ. -/
theorem diagonalTuple_ne (hne : ∀ l ∈ candidates, l ≠ []) (hl : l ∈ candidates)
    (hi : i < l.length) (hj : j < l.length) (hij : (l[i] == l[j]) = false) :
    (CombinationSpec.diagonalTuple candidates i == CombinationSpec.diagonalTuple candidates j) =
      false := by
  induction candidates with
  | nil => cases hl
  | cons head candidates ih =>
    have hhead := hne head List.mem_cons_self
    obtain ⟨hi', hleft⟩ := diagonalTuple_cons candidates hhead i
    obtain ⟨hj', hright⟩ := diagonalTuple_cons candidates hhead j
    rw [hleft, hright, List.cons_beq_cons, Bool.and_eq_false_iff]
    rcases List.mem_cons.1 hl with rfl | hl
    · left
      simpa [Nat.mod_eq_of_lt hi, Nat.mod_eq_of_lt hj] using hij
    · exact .inr (ih (fun l hl => hne l (List.mem_cons_of_mem _ hl)) hl)

/-- The product of lists without repetitions has none. -/
theorem distinct_nestedProduct (hdistinct : ∀ l ∈ candidates, Distinct l) :
    Distinct (nestedProduct candidates) := by
  induction candidates with
  | nil => exact List.pairwise_singleton _ _
  | cons l candidates ih =>
    have hrest := ih fun l hl => hdistinct l (List.mem_cons_of_mem _ hl)
    refine List.pairwise_flatMap.2 ⟨fun a _ => ?_, (hdistinct l List.mem_cons_self).imp ?_⟩
    · refine List.pairwise_map.2 (hrest.imp fun htuple => ?_)
      rw [List.cons_beq_cons, htuple, Bool.and_false]
    · intro a b hab
      simp only [List.mem_map]
      rintro _ ⟨tuple, -, rfl⟩ _ ⟨other, -, rfl⟩
      rw [List.cons_beq_cons, hab, Bool.false_and]

/-- The diagonal has no repetition, as its tuples differ in a longest list. -/
theorem distinct_diagonalTuples (hne : ∀ l ∈ candidates, l ≠ [])
    (hdistinct : ∀ l ∈ candidates, Distinct l) : Distinct (diagonalTuples candidates) := by
  rcases foldl_max_eq_or_mem (candidates.map List.length) 0 with hzero | hmem
  · rw [diagonalTuples_eq_map, hzero]
    exact .nil
  · obtain ⟨l, hl, hlength⟩ := List.mem_map.1 hmem
    rw [diagonalTuples_eq_map, ← hlength]
    refine List.pairwise_map.2 (List.pairwise_lt_range.imp_of_mem fun hi hj hlt => ?_)
    have hi := List.mem_range.1 hi
    have hj := List.mem_range.1 hj
    exact diagonalTuple_ne hne hl hi hj (List.pairwise_iff_getElem.1 (hdistinct l hl) _ _ hi hj hlt)

/-- The tuples of the diagonal and then those of the product that are not on it. -/
def twoPhases (candidates : List (List α)) : List (List α) :=
  diagonalTuples candidates ++ (nestedProduct candidates).filter fun tuple =>
    !(diagonalTuples candidates).contains tuple

variable [EquivBEq α]

/-- The tuples of both phases are those of the product, in another order. -/
theorem twoPhases_perm (hne : ∀ l ∈ candidates, l ≠ [])
    (hdistinct : ∀ l ∈ candidates, Distinct l) :
    (twoPhases candidates).Perm (nestedProduct candidates) :=
  perm_of_subset (distinct_diagonalTuples hne hdistinct) (distinct_nestedProduct hdistinct)
    (diagonalTuples_subset hne)

/-- A selection is its two phases up to the cap: the diagonal that it starts with has no repetitions
to drop. Without keys it starts with the empty tuple, which is otherwise the first of the
product. -/
theorem toList?_combinations_eq_twoPhases {spec : CombinationSpec α}
    (hlen : spec.keys.length = spec.candidates.length)
    (hne : ∀ l ∈ spec.candidates, l ≠ []) (hdistinct : ∀ l ∈ spec.candidates, Distinct l) :
    spec.combinations.toList? =
      some (((twoPhases spec.candidates).take spec.maxCombinations).map spec.assign) := by
  have hphases : (spec.diagonal ++ (nestedProduct spec.candidates).filter fun tuple =>
      !spec.diagonal.contains tuple) = twoPhases spec.candidates := by
    rw [twoPhases, CombinationSpec.diagonal]
    split
    · next hkeys =>
      have hcandidates : spec.candidates = [] := by
        rw [List.isEmpty_iff.1 hkeys] at hlen
        exact List.eq_nil_of_length_eq_zero hlen.symm
      rw [hcandidates]
      rfl
    · rw [← (distinct_diagonalTuples hne hdistinct).eraseDups_eq, diagonalTuples_eq_map]
      rfl
  rw [CombinationSpec.toList?_combinations hlen hne, hphases]

end

/-! ## Tuples under their keys -/

section
variable {α : Type} {live keyed : List (String × List α)} {k : String × List α}
  {keys : List String} {tuple other : List α} {i cap : Nat}

/-- The candidates of a tuple under the keys. -/
def bindings (live : List (String × List α)) (tuple : List α) : Fields α :=
  Fields.ofPairs ((live.map (·.1)).zip tuple)

/-- The lengths of the candidates of keys are those of lists of candidates. -/
theorem map_length_live (live : List (String × List α)) :
    live.map (·.2.length) = (live.map (·.2)).map List.length := by
  rw [List.map_map]
  rfl

/-- A tuple of candidates has one for every key. -/
theorem exists_mem_zip (htuple : List.Forall₂ (· ∈ ·) tuple (live.map (·.2))) (hk : k ∈ live) :
    ∃ a ∈ k.2, (k.1, a) ∈ (live.map (·.1)).zip tuple := by
  induction live generalizing tuple with
  | nil => cases hk
  | cons head live ih =>
    obtain _ | ⟨ha, hrest⟩ := htuple
    cases hk with
    | head => exact ⟨_, ha, List.mem_cons_self⟩
    | tail _ hk =>
      obtain ⟨a, ha, hmem⟩ := ih hrest hk
      exact ⟨a, ha, List.mem_cons_of_mem _ hmem⟩

/-- A tuple of the diagonal has for a key the candidate at its position, counted on from the front
in shorter lists. -/
theorem exists_mem_zip_diagonalTuple (hne : ∀ k ∈ live, k.2 ≠ []) (hk : k ∈ live) (i : Nat) :
    ∃ a, k.2[i % k.2.length]? = some a ∧
      (k.1, a) ∈ (live.map (·.1)).zip (CombinationSpec.diagonalTuple (live.map (·.2)) i) := by
  induction live with
  | nil => cases hk
  | cons head live ih =>
    obtain ⟨hi, htuple⟩ :=
      diagonalTuple_cons (live.map (·.2)) (hne head List.mem_cons_self) i
    rw [List.map_cons, List.map_cons, htuple, List.zip_cons_cons]
    cases hk with
    | head => exact ⟨_, List.getElem?_eq_getElem hi, List.mem_cons_self⟩
    | tail _ hk =>
      obtain ⟨a, ha, hmem⟩ := ih (fun k hk => hne k (.tail _ hk)) hk
      exact ⟨a, ha, List.mem_cons_of_mem _ hmem⟩

/-- The diagonal comes to every candidate at its position. -/
theorem mem_zip_diagonalTuple (hne : ∀ k ∈ live, k.2 ≠ []) (hk : k ∈ live) (hi : i < k.2.length) :
    (k.1, k.2[i]) ∈ (live.map (·.1)).zip (CombinationSpec.diagonalTuple (live.map (·.2)) i) := by
  obtain ⟨a, ha, hmem⟩ := exists_mem_zip_diagonalTuple hne hk i
  rw [Nat.mod_eq_of_lt hi, List.getElem?_eq_getElem hi] at ha
  cases ha
  exact hmem

/-- A map has what stands next to the keys, and only that. -/
theorem mem_bindings {key : String} {a : α} (hkeys : (live.map (·.1)).Nodup)
    (htuple : tuple.length = live.length) :
    (key, a) ∈ bindings live tuple ↔ (key, a) ∈ (live.map (·.1)).zip tuple := by
  refine Fields.mem_ofPairs ?_
  rw [List.map_fst_zip (Nat.le_of_eq (by rw [List.length_map, htuple]))]
  exact hkeys

/-- Under each key there is the candidate that the tuple has at its place. -/
theorem get?_bindings {key : String} {a : α} (hkeys : (live.map (·.1)).Nodup)
    (htuple : tuple.length = live.length) (h : (key, a) ∈ (live.map (·.1)).zip tuple) :
    (bindings live tuple).get? key = some a :=
  Fields.get?_of_mem (Fields.ordered_ofPairs _).nodup ((mem_bindings hkeys htuple).2 h)

/-- What a tuple of the diagonal binds a key to. -/
theorem get?_bindings_diagonalTuple (hne : ∀ k ∈ live, k.2 ≠ []) (hkeys : (live.map (·.1)).Nodup)
    (hk : k ∈ live) (i : Nat) :
    (bindings live (CombinationSpec.diagonalTuple (live.map (·.2)) i)).get? k.1 =
      k.2[i % k.2.length]? := by
  obtain ⟨a, ha, hmem⟩ := exists_mem_zip_diagonalTuple hne hk i
  have hlength : (CombinationSpec.diagonalTuple (live.map (·.2)) i).length = live.length := by
    rw [(CombinationSpec.forall₂_diagonalTuple (List.forall_mem_map.2 hne) i).length_eq,
      List.length_map]
  rw [ha, get?_bindings hkeys hlength hmem]

/-- Every candidate is bound by a tuple of the diagonal. -/
theorem exists_combo_of_diagonalTuples {a : α} (hne : ∀ k ∈ live, k.2 ≠ [])
    (hkeys : (live.map (·.1)).Nodup) (hk : k ∈ live) (ha : a ∈ k.2) :
    ∃ combo ∈ (diagonalTuples (live.map (·.2))).map (bindings live), combo.get? k.1 = some a := by
  obtain ⟨i, hi, rfl⟩ := List.getElem_of_mem ha
  have hlongest : i < ((live.map (·.2)).map List.length).foldl max 0 :=
    Nat.lt_of_lt_of_le hi (le_foldl_max (.inl (List.mem_map_of_mem (List.mem_map_of_mem hk))))
  refine ⟨_, List.mem_map_of_mem (List.mem_map_of_mem (List.mem_range.2 hlongest)), ?_⟩
  refine (get?_bindings_diagonalTuple hne hkeys hk i).trans ?_
  rw [Nat.mod_eq_of_lt hi, List.getElem?_eq_getElem hi]

variable [BEq α]

/-- Tuples that differ do so under a key. -/
theorem exists_ne_of_zip (htuple : tuple.length = keys.length) (hother : other.length = keys.length)
    (h : (tuple == other) = false) :
    ∃ key a b, (key, a) ∈ keys.zip tuple ∧ (key, b) ∈ keys.zip other ∧ (a == b) = false := by
  induction keys generalizing tuple other with
  | nil =>
    rw [List.eq_nil_of_length_eq_zero htuple, List.eq_nil_of_length_eq_zero hother] at h
    cases h
  | cons key keys ih =>
    obtain ⟨a, tuple, rfl⟩ := List.exists_cons_of_length_eq_add_one htuple
    obtain ⟨b, other, rfl⟩ := List.exists_cons_of_length_eq_add_one hother
    rw [List.cons_beq_cons, Bool.and_eq_false_iff] at h
    rcases h with h | h
    · exact ⟨key, a, b, List.mem_cons_self, List.mem_cons_self, h⟩
    · obtain ⟨name, a', b', ha, hb, hne⟩ :=
        ih (Nat.succ.inj htuple) (Nat.succ.inj hother) h
      exact ⟨name, a', b', List.mem_cons_of_mem _ ha, List.mem_cons_of_mem _ hb, hne⟩

/-- Every member of a map is under its key in an equal map, up to equality. -/
theorem exists_mem_of_beq {fields others : List (String × α)} {key : String} {a : α}
    (h : (fields == others) = true) (ha : (key, a) ∈ fields) :
    ∃ b, (key, b) ∈ others ∧ (a == b) = true := by
  induction fields generalizing others with
  | nil => cases ha
  | cons m fields ih =>
    cases others with
    | nil => cases h
    | cons n others =>
      rw [List.cons_beq_cons, Bool.and_eq_true] at h
      cases ha with
      | head =>
        obtain ⟨hkey, hab⟩ := Bool.and_eq_true_iff.1 h.1
        exact ⟨n.2, by rw [eq_of_beq hkey]; exact List.mem_cons_self, hab⟩
      | tail _ ha =>
        obtain ⟨b, hb, hab⟩ := ih h.2 ha
        exact ⟨b, List.mem_cons_of_mem _ hb, hab⟩

/-- Tuples that differ are different maps. -/
theorem bindings_ne (hkeys : (live.map (·.1)).Nodup) (htuple : tuple.length = live.length)
    (hother : other.length = live.length) (h : (tuple == other) = false) :
    (bindings live tuple == bindings live other) = false := by
  refine Bool.eq_false_iff.2 fun hbeq => ?_
  have hlength : (live.map (·.1)).length = live.length := List.length_map _
  obtain ⟨key, a, b, ha, hb, hab⟩ :=
    exists_ne_of_zip (htuple.trans hlength.symm) (hother.trans hlength.symm) h
  obtain ⟨c, hc, hac⟩ := exists_mem_of_beq hbeq ((mem_bindings hkeys htuple).2 ha)
  have hget := get?_bindings hkeys hother ((mem_bindings hkeys hother).1 hc)
  rw [get?_bindings hkeys hother hb] at hget
  cases hget
  exact absurd hac (Bool.eq_false_iff.1 hab)

/-! ## What a selection gives -/

/-- These are the maps that a selection gives for keys with candidates, up to a cap. -/
structure Selects (live : List (String × List α)) (cap : Nat) (combos : List (Fields α)) :
    Prop where
  /-- They are the diagonal, followed by the nested product without it, cut off at the cap. -/
  eq_take : combos = ((twoPhases (live.map (·.2))).take cap).map (bindings live)
  /-- On the diagonal, map `i` has candidate `i` of every key, starting over in shorter lists. -/
  diagonal : ∀ i < min cap ((live.map (·.2.length)).foldl max 0),
    ∃ combo, combos[i]? = some combo ∧ ∀ k ∈ live, combo.get? k.1 = k.2[i % k.2.length]?
  /-- There are as many as the product has tuples, or as the cap allows. -/
  length_eq : combos.length = min cap (live.map (·.2.length)).prod
  /-- None comes twice. -/
  distinct : Distinct combos
  /-- All of them are of the product. -/
  mem_product : ∀ combo ∈ combos,
    ∃ tuple ∈ nestedProduct (live.map (·.2)), combo = bindings live tuple
  /-- Every key has one of its candidates. -/
  bound : ∀ combo ∈ combos, ∀ k ∈ live, ∃ a ∈ k.2, combo.get? k.1 = some a
  /-- A cap of at least the longest length leaves every candidate its place on the diagonal. -/
  early : ((live.map (·.2.length)).foldl max 0) ≤ cap → ∀ k ∈ live, ∀ a ∈ k.2,
    ∃ combo ∈ combos.take ((live.map (·.2.length)).foldl max 0), combo.get? k.1 = some a

/-- The cap comes after the whole diagonal. -/
theorem take_twoPhases {candidates : List (List α)}
    (hcap : (candidates.map List.length).foldl max 0 ≤ cap) :
    ((twoPhases candidates).take cap).take ((candidates.map List.length).foldl max 0) =
      diagonalTuples candidates := by
  have hlength : (diagonalTuples candidates).length = (candidates.map List.length).foldl max 0 := by
    rw [diagonalTuples, List.length_map, List.length_range]
  rw [List.take_take, Nat.min_eq_left hcap, twoPhases, ← hlength, List.take_left]

/-- A place on the diagonal has the tuple of its number. -/
theorem getElem?_take_twoPhases
    (hi : i < min cap (((live.map (·.2)).map List.length).foldl max 0)) :
    (((twoPhases (live.map (·.2))).take cap).map (bindings live))[i]? =
      some (bindings live (CombinationSpec.diagonalTuple (live.map (·.2)) i)) := by
  obtain ⟨hcap, hlongest⟩ := Nat.lt_min.1 hi
  have hrange : (List.range (((live.map (·.2)).map List.length).foldl max 0))[i]? = some i := by
    rw [List.getElem?_range hlongest]
  rw [List.getElem?_map, List.getElem?_take_of_lt hcap, twoPhases, diagonalTuples_eq_map,
    List.getElem?_append_left (by simpa using hlongest), List.getElem?_map, hrange]
  rfl

variable [EquivBEq α]

/-- The two phases go through the product of the lists that are not empty. -/
theorem twoPhases_perm_of_live (hne : ∀ k ∈ live, k.2 ≠ [])
    (hdistinct : ∀ k ∈ live, Distinct k.2) :
    (twoPhases (live.map (·.2))).Perm (nestedProduct (live.map (·.2))) :=
  twoPhases_perm (List.forall_mem_map.2 hne) (List.forall_mem_map.2 hdistinct)

/-- What is selected is a tuple of the product, with one candidate for each key. -/
theorem mem_take_twoPhases (hne : ∀ k ∈ live, k.2 ≠ []) (hdistinct : ∀ k ∈ live, Distinct k.2)
    (h : tuple ∈ (twoPhases (live.map (·.2))).take cap) :
    tuple ∈ nestedProduct (live.map (·.2)) ∧ tuple.length = live.length := by
  have hmem := (twoPhases_perm_of_live hne hdistinct).mem_iff.1 (List.mem_of_mem_take h)
  exact ⟨hmem, by rw [(mem_nestedProduct.1 hmem).length_eq, List.length_map]⟩

/-- Tuples of the two phases are told apart by the maps that they become. -/
theorem distinct_bindings (hne : ∀ k ∈ live, k.2 ≠ []) (hkeys : (live.map (·.1)).Nodup)
    (hdistinct : ∀ k ∈ live, Distinct k.2) :
    Distinct (((twoPhases (live.map (·.2))).take cap).map (bindings live)) := by
  have hproduct : Distinct (nestedProduct (live.map (·.2))) :=
    distinct_nestedProduct (List.forall_mem_map.2 hdistinct)
  have hphases : Distinct (twoPhases (live.map (·.2))) :=
    hproduct.perm (twoPhases_perm_of_live hne hdistinct).symm BEq.symm_false
  refine List.pairwise_map.2 ((hphases.sublist (List.take_sublist cap _)).imp_of_mem ?_)
  intro tuple other htuple hother h
  exact bindings_ne hkeys (mem_take_twoPhases hne hdistinct htuple).2
    (mem_take_twoPhases hne hdistinct hother).2 h

/-- The diagonal and the product without it are what a selection is said to give. -/
theorem selects_twoPhases (hne : ∀ k ∈ live, k.2 ≠ []) (hkeys : (live.map (·.1)).Nodup)
    (hdistinct : ∀ k ∈ live, Distinct k.2) (cap : Nat) :
    Selects live cap (((twoPhases (live.map (·.2))).take cap).map (bindings live)) where
  eq_take := rfl
  diagonal := by
    intro i hi
    rw [map_length_live] at hi
    exact ⟨_, getElem?_take_twoPhases hi, fun k hk => get?_bindings_diagonalTuple hne hkeys hk i⟩
  length_eq := by
    rw [List.length_map, List.length_take, (twoPhases_perm_of_live hne hdistinct).length_eq,
      length_nestedProduct, ← List.prod_eq_foldr, ← map_length_live]
  distinct := distinct_bindings hne hkeys hdistinct
  mem_product := by
    intro combo hcombo
    obtain ⟨tuple, htuple, rfl⟩ := List.mem_map.1 hcombo
    exact ⟨tuple, (mem_take_twoPhases hne hdistinct htuple).1, rfl⟩
  bound := by
    intro combo hcombo k hk
    obtain ⟨tuple, htuple, rfl⟩ := List.mem_map.1 hcombo
    obtain ⟨hmem, hlength⟩ := mem_take_twoPhases hne hdistinct htuple
    obtain ⟨a, ha, hzip⟩ := exists_mem_zip (mem_nestedProduct.1 hmem) hk
    exact ⟨a, ha, get?_bindings hkeys hlength hzip⟩
  early := by
    intro hcap k hk a ha
    rw [map_length_live] at hcap ⊢
    rw [← List.map_take, take_twoPhases hcap]
    exact exists_combo_of_diagonalTuples hne hkeys hk ha

/-- Candidates without repetitions under distinct keys have a selection, and it is that of the keys
that have candidates. -/
theorem exists_selects (hkeys : (keyed.map (·.1)).Nodup) (hdistinct : ∀ k ∈ keyed, Distinct k.2)
    (hcap : 0 < cap) :
    ∃ spec combos, CombinationSpec.ofCandidates keyed cap = .ok spec ∧
      spec.combinations.toList? = some combos ∧
      Selects (keyed.filter fun k => !k.2.isEmpty) cap combos := by
  have hsub : (keyed.filter fun k => !k.2.isEmpty).Sublist keyed := List.filter_sublist
  have hne : ∀ k ∈ keyed.filter fun k => !k.2.isEmpty, k.2 ≠ [] := by
    intro k hk
    simpa using (List.mem_filter.1 hk).2
  have hdistinct : ∀ k ∈ keyed.filter fun k => !k.2.isEmpty, Distinct k.2 :=
    fun k hk => hdistinct k (hsub.mem hk)
  have hselects := selects_twoPhases hne (hkeys.sublist (hsub.map _)) hdistinct cap
  refine ⟨_, _, if_neg (Nat.ne_of_gt hcap), ?_, hselects⟩
  exact toList?_combinations_eq_twoPhases (by simp) (List.forall_mem_map.2 hne)
    (List.forall_mem_map.2 hdistinct)

end

/-- Shirts in four colours, three cuts and two sizes, and a print that there is none of. -/
def shirts : List (String × List String) :=
  [("colour", ["red", "green", "blue", "black"]), ("print", []), ("cut", ["slim", "wide", "long"]),
    ("size", ["S", "M"])]

/-- Of the shirts the first four are the diagonal, on which the cuts start over once and the sizes
twice, and the others are the product behind it, without the shirt that it begins with. -/
theorem shirts_selects :
    ∃ spec combos, CombinationSpec.ofCandidates shirts 6 = .ok spec ∧
      spec.combinations.toList? = some combos ∧
      Selects (shirts.filter fun k => !k.2.isEmpty) 6 combos ∧
      combos = [[("colour", "red"), ("cut", "slim"), ("size", "S")],
        [("colour", "green"), ("cut", "wide"), ("size", "M")],
        [("colour", "blue"), ("cut", "long"), ("size", "S")],
        [("colour", "black"), ("cut", "slim"), ("size", "M")],
        [("colour", "red"), ("cut", "slim"), ("size", "M")],
        [("colour", "red"), ("cut", "wide"), ("size", "S")]] := by
  have hkeys : (shirts.map (·.1)).Nodup := by decide
  have hdistinct : ∀ k ∈ shirts, Distinct k.2 := by
    unfold Distinct
    decide
  have hcap : 0 < 6 := by decide
  obtain ⟨spec, combos, hspec, hall, hselects⟩ := exists_selects hkeys hdistinct hcap
  exact ⟨spec, combos, hspec, hall, hselects, hselects.eq_take.trans (by decide)⟩

end DataContract
