import DataContract.Proofs.PatternEquality
import DataContract.Proofs.Variants.Objects

/-!
# Repeated variants of objects

Different tuples of candidates become different objects (`Variants.tupleKeys_equal_iff`), so the
variants of an object repeat themselves exactly where the selection does. The candidates for a key
are not told apart: of equal variants of its pattern only neighbours are dropped. A candidate that
comes again later is taken again by the tuples that are not on the diagonal
(`Variants.distinct_object_iff`).
-/

namespace DataContract

namespace Pattern

open Fields (Ordered)

/-- Fields in order are equal if what is under each name is. -/
theorem equalFields_iff_get? {as bs : Fields Pattern} (has : as.Ordered) (hbs : bs.Ordered) :
    equalFields as bs = true ↔ ∀ name, (as.get? name == bs.get? name) = true := by
  rw [equalFields_iff]
  constructor
  · intro h name
    have hnames : as.names = bs.names := map_eq_of_forall₂ h fun _ _ h => h.1
    have hvalues :=
      (Fields.forall₂_iff_get? (R := fun p q => p.equal q = true) hnames has.nodup).1 h
    cases ha : as.get? name with
    | none =>
      rw [Fields.get?_eq_none, hnames, ← Fields.get?_eq_none] at ha
      rw [ha]
      rfl
    | some a =>
      have hmem := Fields.mem_of_get? ha
      have hname : name ∈ bs.names := hnames ▸ List.mem_map_of_mem hmem
      obtain ⟨b, hb⟩ := Option.isSome_iff_exists.1 (Fields.has_iff_mem_names.2 hname)
      rw [hb]
      exact hvalues _ hmem b hb
  · intro h
    have hnames : as.names = bs.names := by
      refine Fields.eq_of_mem_iff (f := id) (by rwa [List.map_id]) (by rwa [List.map_id])
        fun name => ?_
      rw [← Fields.has_iff_mem_names, ← Fields.has_iff_mem_names, Fields.has, Fields.has,
        Variants.isSome_eq_of_beq (h name)]
    refine (Fields.forall₂_iff_get? (R := fun p q => p.equal q = true) hnames has.nodup).2
      fun m hm b hb => ?_
    have hsame := h m.1
    rwa [Fields.get?_of_mem has.nodup hm, hb] at hsame

end Pattern

namespace Variants

open Pattern (declaredKeys equalFields)

/-! ## Tuples as objects -/

section
variable {names : List String} {tuple other : List (Option Pattern)}

/-- The objects of two tuples are equal exactly if the tuples are. -/
theorem tupleKeys_equal_iff (hbase : (names.map Key.base).Nodup)
    (htuple : tuple.length = names.length) (hother : other.length = names.length) :
    equalFields (tupleKeys names tuple) (tupleKeys names other) = true ↔
      (tuple == other) = true := by
  rw [Pattern.equalFields_iff_get? (ordered_tupleKeys _ _) (ordered_tupleKeys _ _)]
  constructor
  · intro h
    by_contra hne
    obtain ⟨key, a, b, ha, hb, hab⟩ :=
      exists_ne_of_zip htuple hother (Bool.eq_false_iff.2 hne)
    have hsame := h (Key.base key)
    rw [get?_tupleKeys_of_mem hbase htuple ha, get?_tupleKeys_of_mem hbase hother hb, hab] at hsame
    cases hsame
  · intro h name
    by_cases hname : name ∈ names.map Key.base
    · obtain ⟨key, hkey, rfl⟩ := List.mem_map.1 hname
      rw [← List.map_fst_zip (Nat.le_of_eq htuple.symm)] at hkey
      obtain ⟨⟨key, a⟩, ha, rfl⟩ := List.mem_map.1 hkey
      obtain ⟨b, hb, hab⟩ := exists_mem_zip_of_beq h ha
      rw [get?_tupleKeys_of_mem hbase htuple ha, get?_tupleKeys_of_mem hbase hother hb]
      exact hab
    · have hnone {tuple : List (Option Pattern)} (hlen : tuple.length = names.length) :
          (tupleKeys names tuple).get? name = none := by
        refine Option.eq_none_iff_forall_ne_some.2 fun q hq => hname ?_
        obtain ⟨key, hzip, rfl⟩ := (get?_tupleKeys hbase hlen name q).1 hq
        exact List.mem_map_of_mem (List.of_mem_zip hzip).1
      rw [hnone htuple, hnone hother]
      rfl

/-- Objects of one layout and title are equal when their fields are. -/
theorem object_beq (layout : Layout) (title : Option String) (as bs : List (String × Pattern)) :
    (Pattern.object layout as title == .object layout bs title) = equalFields as bs := by
  show Pattern.equal _ _ = _
  simp [Pattern.equal]

end

/-- A list whose elements are told apart as before stays without repetitions. -/
theorem distinct_map_iff {α β : Type} [BEq α] [BEq β] {f : α → β} {l : List α}
    (h : ∀ a ∈ l, ∀ b ∈ l, (f a == f b) = (a == b)) : Distinct (l.map f) ↔ Distinct l := by
  rw [Distinct, List.pairwise_map]
  exact List.Pairwise.iff_of_mem fun ha hb => by rw [h _ ha _ hb]

/-! ## Variants -/

section
variable {keys : List (String × Pattern)} {layout : Layout} {title : Option String} {row : Row}
  {r : Resolver} {keyed : List (String × List (Option Pattern))} {l : LazyList Pattern}
  {spec : CombinationSpec (Option Pattern)} {n : Nat}

/-- The objects of the tuples of a selection repeat themselves where the tuples do. -/
theorem distinct_objects_iff (layout : Layout) (title : Option String) (cap : Nat)
    (hbase : ((declaredKeys keys).map fun m => Key.base m.1).Nodup)
    (h : CandidatesFor keys row r keyed)
    (hspec : CombinationSpec.ofCandidates keyed r.config.maxCombinations = .ok spec) :
    Distinct ((spec.emitted.take cap).map fun tuple =>
      Pattern.object layout (tupleKeys spec.keys tuple) title) ↔ Distinct (spec.emitted.take cap) := by
  obtain ⟨-, rfl⟩ := CombinationSpec.ofCandidates_eq_ok_iff.1 hspec
  have hnames : (((CombinationSpec.live keyed).map (·.1)).map Key.base).Nodup :=
    (h.nodup_base hbase).sublist (((CombinationSpec.live_sublist keyed).map (·.1)).map Key.base)
  have hlen : ∀ tuple ∈ (CombinationSpec.emitted ⟨(CombinationSpec.live keyed).map (·.1),
      (CombinationSpec.live keyed).map (·.2), r.config.maxCombinations⟩).take cap,
      tuple.length = ((CombinationSpec.live keyed).map (·.1)).length := by
    intro tuple htuple
    have hmem := CombinationSpec.forall₂_of_mem_take_emitted
      (fun k hk => CombinationSpec.ne_nil_of_mem_live hk) htuple
    simpa using hmem.length_eq
  refine distinct_map_iff fun tuple htuple other hother => ?_
  rw [object_beq, Bool.eq_iff_iff]
  exact tupleKeys_equal_iff hnames (hlen tuple htuple) (hlen other hother)

/-- The variants of an object are pairwise different if no tuple off the diagonal takes a candidate
that comes more than once among those of its key, and where the cap cuts nothing off only then. This
is so if the candidates for each key are pairwise different. -/
theorem distinct_object_iff (hbase : ((declaredKeys keys).map fun m => Key.base m.1).Nodup)
    (h : ofBudget n (.object layout keys title) row r = .ok l) :
    ∃ keyed spec variants, CandidatesFor keys row r keyed ∧
      CombinationSpec.ofCandidates keyed r.config.maxCombinations = .ok spec ∧
      l.toList? = some variants ∧
      ((∀ k ∈ keyed, Distinct k.2) → spec.TakenOnce) ∧
      (spec.TakenOnce → Distinct variants) ∧
      (variants.length < r.config.maxCombinations → Distinct variants → spec.TakenOnce) := by
  obtain ⟨keyed, spec, hkeyed, hspec, hall⟩ := exists_candidatesFor h
  have hiff := distinct_objects_iff layout title r.config.maxCombinations hbase hkeyed hspec
  refine ⟨keyed, spec, _, hkeyed, hspec, hall, fun hdistinct => ?_, fun honce => ?_,
    fun hlength hdistinct => ?_⟩
  · obtain ⟨-, rfl⟩ := CombinationSpec.ofCandidates_eq_ok_iff.1 hspec
    refine CombinationSpec.takenOnce_of_distinct (List.forall_mem_map.2 fun k hk => ?_)
    exact hdistinct k ((CombinationSpec.live_sublist keyed).mem hk)
  · have hemitted := spec.distinct_emitted_iff.2 honce
    exact hiff.2 (hemitted.sublist (List.take_sublist _ _))
  · have hemitted := hiff.1 hdistinct
    rw [List.length_map, List.length_take] at hlength
    rw [List.take_of_length_le (by omega)] at hemitted
    exact spec.distinct_emitted_iff.1 hemitted

end

/-- A survey has an answer, which is a number or a string, and perhaps a note. Its union names
numbers twice. -/
def surveyKeys : List (String × Pattern) :=
  [("answer", .union [.number, .string, .number] none none), ("note?", .string)]

/-- Whether the variants of a survey are different is decided by the candidates for its keys. -/
theorem survey_distinct_iff :
    ∃ l, ofBudget 3 (.object .json surveyKeys none) .empty .empty = .ok l ∧
      ∃ keyed spec variants, CandidatesFor surveyKeys .empty .empty keyed ∧
        CombinationSpec.ofCandidates keyed Resolver.empty.config.maxCombinations = .ok spec ∧
        l.toList? = some variants ∧
        ((∀ k ∈ keyed, Distinct k.2) → spec.TakenOnce) ∧
        (spec.TakenOnce → Distinct variants) ∧
        (variants.length < Resolver.empty.config.maxCombinations → Distinct variants →
          spec.TakenOnce) := by
  have hbase : ((declaredKeys surveyKeys).map fun m => Key.base m.1).Nodup := by decide
  exact ⟨_, rfl, distinct_object_iff (n := 3) hbase rfl⟩

/-- A survey with a number and without a note comes twice: the second one takes the number that the
union names last. -/
theorem survey_not_distinct :
    ∃ l variants, ofBudget 3 (.object .json surveyKeys none) .empty .empty = .ok l ∧
      l.toList? = some variants ∧
      variants =
        [.object .json [("answer", .number), ("note", .string)] none,
          .object .json [("answer", .string)] none,
          .object .json [("answer", .number)] none,
          .object .json [("answer", .string), ("note", .string)] none,
          .object .json [("answer", .number)] none] ∧
      ¬ Distinct variants := by
  refine ⟨_, _, rfl, rfl, rfl, ?_⟩
  unfold Distinct
  decide

end Variants

end DataContract
