import DataContract.Proofs.Combinations.Phases

/-!
# Selections with repetitions

A selection drops a tuple that it has had from its diagonal, and a tuple of the product that is on
the diagonal. It does not compare the tuples of the product with each other. A tuple is as often in
the product as its candidates are in their lists, multiplied (`count_nestedProduct`), so a selection
has repetitions exactly if a tuple off the diagonal takes a candidate that comes more than once
(`CombinationSpec.distinct_emitted_iff`). Among candidates that are told apart there is none
(`CombinationSpec.takenOnce_of_distinct`).
-/

namespace DataContract

/-! ## Elements that come once -/

section
variable {α : Type} [BEq α] [EquivBEq α] {l : List α} {a b : α}

/-- An element does not come in a list if it is equal to none of it. -/
theorem count_eq_zero_iff : l.count a = 0 ↔ ∀ b ∈ l, (a == b) = false := by
  rw [List.count, List.countP_eq_zero]
  refine forall₂_congr fun b _ => ?_
  rw [Bool.not_eq_true, BEq.comm]

/-- No two elements are equal exactly if each comes once, equal ones counted together. -/
theorem distinct_iff_count : Distinct l ↔ ∀ a ∈ l, l.count a = 1 := by
  induction l with
  | nil => exact iff_of_true .nil nofun
  | cons a l ih =>
    rw [Distinct, List.pairwise_cons, ← Distinct, ih, ← count_eq_zero_iff]
    constructor
    · rintro ⟨ha, hl⟩ b hb
      rcases List.mem_cons.1 hb with rfl | hb
      · rw [List.count_cons, ha, if_pos BEq.rfl]
      · rw [List.count_cons, hl b hb, if_neg]
        exact Bool.eq_false_iff.1 (count_eq_zero_iff.1 ha b hb)
    · intro h
      have ha : l.count a = 0 := by
        have := h a List.mem_cons_self
        rw [List.count_cons, if_pos BEq.rfl] at this
        omega
      refine ⟨ha, fun b hb => ?_⟩
      have hab := count_eq_zero_iff.1 ha b hb
      simpa [List.count_cons, hab] using h b (List.mem_cons_of_mem _ hb)

/-- Dropping repetitions leaves none. -/
theorem distinct_eraseDups (l : List α) : Distinct l.eraseDups := by
  induction l using eraseDups_induction with
  | nil => exact .nil
  | cons a l ih =>
    rw [List.eraseDups_cons]
    refine List.pairwise_cons.2 ⟨fun b hb => ?_, ih⟩
    have hba := (List.mem_filter.1 (mem_of_mem_eraseDups hb)).2
    rw [BEq.comm]
    simpa using hba

/-- Equal elements are in the same lists. -/
theorem contains_congr (h : (a == b) = true) (l : List α) : l.contains a = l.contains b := by
  rw [Bool.eq_iff_iff, List.contains_iff_exists_mem_beq, List.contains_iff_exists_mem_beq]
  exact exists_congr fun c => and_congr_right fun _ => by rw [BEq.congr_left h]

/-- What is equal to no element of a list and put behind it is without repetitions exactly if each
of it came once. -/
theorem distinct_append_filter_iff {part : List α} (hpart : Distinct part) :
    Distinct (part ++ l.filter fun a => !part.contains a) ↔
      ∀ a ∈ l, part.contains a = false → l.count a = 1 := by
  have hcount : ∀ a, part.contains a = false →
      (l.filter fun a => !part.contains a).count a = l.count a := by
    intro a ha
    rw [List.count, List.countP_filter]
    refine List.countP_congr fun b _ => ?_
    simp only [Bool.and_eq_true, Bool.not_eq_true']
    exact and_iff_left_of_imp fun hba => (contains_congr hba part).trans ha
  have happart : ∀ a ∈ part, ∀ b ∈ l.filter fun a => !part.contains a, (a == b) = false := by
    intro a ha b hb
    refine Bool.eq_false_iff.2 fun hab => ?_
    have hcontains := List.contains_iff_exists_mem_beq.2 ⟨a, ha, BEq.symm hab⟩
    simpa [hcontains] using (List.mem_filter.1 hb).2
  rw [Distinct, List.pairwise_append, ← Distinct, ← Distinct, and_iff_right hpart,
    and_iff_left happart, distinct_iff_count]
  constructor
  · intro h a ha hout
    rw [← hcount a hout]
    exact h a (List.mem_filter.2 ⟨ha, by rw [hout]; rfl⟩)
  · intro h a ha
    obtain ⟨ha, hout⟩ := List.mem_filter.1 ha
    have hout : part.contains a = false := by simpa using hout
    rw [hcount a hout]
    exact h a ha hout

end

/-! ## Tuples that come once -/

section
variable {α : Type} [BEq α] {candidates : List (List α)} {tuple : List α}

/-- With one candidate in front the tuples that begin with it are counted, and no other ones. -/
theorem count_map_cons (a b : α) (tuples : List (List α)) (tuple : List α) :
    (tuples.map (b :: ·)).count (a :: tuple) = if b == a then tuples.count tuple else 0 := by
  rw [List.count, List.countP_map]
  split
  · next hab => exact List.countP_congr fun t _ => by simp [hab]
  · next hab => exact List.countP_eq_zero.2 fun t _ => by simp [hab]

/-- A tuple of the product is as often in it as its candidates are in their lists, multiplied. -/
theorem count_nestedProduct (a : α) (tuple : List α) (l : List α) (candidates : List (List α)) :
    (nestedProduct (l :: candidates)).count (a :: tuple) =
      l.count a * (nestedProduct candidates).count tuple := by
  rw [nestedProduct]
  induction l with
  | nil => simp
  | cons b l ih =>
    rw [List.flatMap_cons, List.count_append, ih, count_map_cons, List.count_cons]
    split
    · rw [Nat.add_mul, Nat.one_mul, Nat.add_comm]
    · rw [Nat.zero_add, Nat.add_zero]

/-- A tuple comes once in the product exactly if its candidates do in their lists. -/
theorem count_nestedProduct_eq_one_iff (h : List.Forall₂ (· ∈ ·) tuple candidates) :
    (nestedProduct candidates).count tuple = 1 ↔
      List.Forall₂ (fun a l => l.count a = 1) tuple candidates := by
  induction h with
  | nil => exact iff_of_true rfl .nil
  | cons _ _ ih =>
    rw [count_nestedProduct, List.forall₂_cons, ← ih]
    refine ⟨fun h => ?_, fun h => by rw [h.1, h.2]⟩
    exact ⟨Nat.eq_one_of_mul_eq_one_right h, Nat.eq_one_of_mul_eq_one_left h⟩

end

namespace CombinationSpec

variable {α : Type} [BEq α] {spec : CombinationSpec α}

/-- The tuples that are not on the diagonal take candidates that come once among those of their
key. -/
def TakenOnce (spec : CombinationSpec α) : Prop :=
  ∀ tuple ∈ nestedProduct spec.candidates, spec.diagonal.contains tuple = false →
    List.Forall₂ (fun a l => l.count a = 1) tuple spec.candidates

variable [EquivBEq α]

/-- The diagonal of a selection has no repetition. -/
theorem distinct_diagonal (spec : CombinationSpec α) : Distinct spec.diagonal := by
  unfold diagonal
  split
  · exact List.pairwise_singleton _ _
  · exact distinct_eraseDups _

/-- A selection without a cap has no repetitions exactly if no tuple off the diagonal takes a
candidate that comes more than once. -/
theorem distinct_emitted_iff (spec : CombinationSpec α) :
    Distinct spec.emitted ↔ spec.TakenOnce := by
  rw [emitted, distinct_append_filter_iff spec.distinct_diagonal]
  refine forall₂_congr fun tuple htuple => forall_congr' fun _ => ?_
  exact count_nestedProduct_eq_one_iff (mem_nestedProduct.1 htuple)

/-- Candidates that are told apart are taken once. -/
theorem takenOnce_of_distinct (h : ∀ l ∈ spec.candidates, Distinct l) : spec.TakenOnce := by
  intro tuple htuple _
  refine List.Forall₂.flip (((List.forall₂_and_left _ _).2
    ⟨h, (mem_nestedProduct.1 htuple).flip⟩).imp ?_)
  rintro l a ⟨hl, ha⟩
  exact distinct_iff_count.1 hl a ha

end CombinationSpec

/-! ## Candidates on the diagonal -/

section
variable {α : Type} [BEq α] {keys : List String} {tuple other : List α} {key : String} {a : α}

/-- Equal tuples have equal candidates under each key. -/
theorem exists_mem_zip_of_beq (h : (tuple == other) = true) (ha : (key, a) ∈ keys.zip tuple) :
    ∃ b, (key, b) ∈ keys.zip other ∧ (a == b) = true := by
  induction keys generalizing tuple other with
  | nil => cases ha
  | cons name keys ih =>
    cases tuple with
    | nil => cases ha
    | cons c tuple =>
      cases other with
      | nil => cases h
      | cons d other =>
        rw [List.cons_beq_cons, Bool.and_eq_true] at h
        cases ha with
        | head => exact ⟨d, List.mem_cons_self, h.1⟩
        | tail _ ha =>
          obtain ⟨b, hb, hab⟩ := ih h.2 ha
          exact ⟨b, List.mem_cons_of_mem _ hb, hab⟩

/-- The diagonal is no longer than the longest list. -/
theorem CombinationSpec.length_diagonal_le {spec : CombinationSpec α} (hkeys : spec.keys ≠ []) :
    spec.diagonal.length ≤ spec.longest := by
  rw [diagonal, if_neg (by simpa using hkeys)]
  exact Nat.le_trans (eraseDups_sublist _).length_le
    (Nat.le_of_eq (by rw [List.length_map, List.length_range]))

/-- A cap of at least the number of candidates of each key leaves every candidate its place on the
diagonal, or an equal one. -/
theorem CombinationSpec.exists_emitted_of_mem {live : List (String × List α)} {cap : Nat}
    {k : String × List α} (hne : ∀ k ∈ live, k.2 ≠ []) (hcap : ∀ k ∈ live, k.2.length ≤ cap)
    (hk : k ∈ live) (ha : a ∈ k.2) :
    ∃ tuple ∈ (emitted ⟨live.map (·.1), live.map (·.2), cap⟩).take cap,
      ∃ b, (k.1, b) ∈ (live.map (·.1)).zip tuple ∧ (a = b ∨ (a == b) = true) := by
  let spec : CombinationSpec α := ⟨live.map (·.1), live.map (·.2), cap⟩
  have hkeys : spec.keys ≠ [] := List.ne_nil_of_mem (List.mem_map_of_mem hk)
  have hlongest : spec.longest ≤ cap := by
    rw [longest]
    rcases foldl_max_eq_or_mem (spec.candidates.map List.length) 0 with hzero | hmem
    · rw [hzero]
      exact Nat.zero_le cap
    · obtain ⟨l, hl, hlength⟩ := List.mem_map.1 hmem
      obtain ⟨k, hk, rfl⟩ := List.mem_map.1 hl
      rw [← hlength]
      exact hcap k hk
  have hdiagonal : spec.diagonal <+: spec.emitted.take cap := by
    have hfront := List.prefix_append spec.diagonal
      ((nestedProduct spec.candidates).filter fun tuple => !spec.diagonal.contains tuple)
    exact List.prefix_take_iff.2 ⟨hfront, Nat.le_trans (length_diagonal_le hkeys) hlongest⟩
  obtain ⟨i, hi, rfl⟩ := List.getElem_of_mem ha
  have hrange : i < spec.longest := Nat.lt_of_lt_of_le hi
    (le_foldl_max (.inl (List.mem_map_of_mem (List.mem_map_of_mem hk))))
  have hzip := mem_zip_diagonalTuple hne hk hi
  obtain ⟨tuple, htuple, hsame⟩ := exists_mem_eraseDups
    (List.mem_map_of_mem (f := diagonalTuple spec.candidates) (List.mem_range.2 hrange))
  have hmem : tuple ∈ spec.diagonal := by
    rw [diagonal, if_neg (by simpa using hkeys)]
    exact htuple
  refine ⟨tuple, hdiagonal.subset hmem, ?_⟩
  rcases hsame with rfl | hsame
  · exact ⟨_, hzip, .inl rfl⟩
  · obtain ⟨b, hb, hab⟩ := exists_mem_zip_of_beq hsame hzip
    exact ⟨b, hb, .inr hab⟩

end

end DataContract
