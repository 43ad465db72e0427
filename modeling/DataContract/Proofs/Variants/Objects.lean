import DataContract.Proofs.Combinations.Repetitions
import DataContract.Proofs.Variants.Inhabited

/-!
# Variants of objects, key by key

A tuple of candidates becomes an object with what it has for each key, under the base name of the
key (`Variants.get?_tupleKeys_of_mem`). So what holds of the candidates for a key holds under that
key in every variant: a mandatory key is there, and a key with a cell in the row is bound to the
value of the cell. On the diagonal each candidate has its turn, so that an optional key without a
cell is there in one variant and left out in another (`Variants.object_complete`).
-/

namespace DataContract

namespace Variants

open Pattern (HasMembers declaredKeys)

variable {source : VariantSource} {e : Engine} {r : Resolver} {row : Row} {p q : Pattern} {n : Nat}

/-! ## The object of a tuple -/

section
variable {names : List String} {tuple : List (Option Pattern)} {key : String} {a : Option Pattern}

/-- The keys of the object that a tuple of candidates for keys becomes. -/
def tupleKeys (names : List String) (tuple : List (Option Pattern)) : Fields Pattern :=
  objectKeys (Fields.ofPairs (names.zip tuple))

/-- The keys that a tuple becomes are in order, as those of every object. -/
theorem ordered_tupleKeys (names : List String) (tuple : List (Option Pattern)) :
    (tupleKeys names tuple).Ordered :=
  Fields.ordered_ofPairs _

/-- Names that differ without their marks differ also when each is given a candidate. -/
theorem nodup_zip (hbase : (names.map Key.base).Nodup) (hlen : tuple.length = names.length) :
    ((names.zip tuple).map (·.1)).Nodup := by
  rw [List.map_fst_zip (Nat.le_of_eq hlen.symm)]
  exact hbase.of_map

/-- The object has the patterns of the tuple under the base names of their keys. -/
theorem get?_tupleKeys (hbase : (names.map Key.base).Nodup) (hlen : tuple.length = names.length)
    (name : String) (q : Pattern) :
    (tupleKeys names tuple).get? name = some q ↔
      ∃ key, (key, some q) ∈ names.zip tuple ∧ Key.base key = name := by
  have hzip := nodup_zip hbase hlen
  have hd : ((Fields.ofPairs (names.zip tuple)).map fun a => Key.base a.1).Nodup := by
    refine (Fields.ordered_ofPairs _).nodup.of_map.map_on fun b hb c hc he => ?_
    have hb := (Fields.mem_ofPairs hzip).1 hb
    have hc := (Fields.mem_ofPairs hzip).1 hc
    have hkey := List.inj_on_of_nodup_map hbase (List.of_mem_zip hb).1 (List.of_mem_zip hc).1 he
    exact List.inj_on_of_nodup_map hzip hb hc hkey
  rw [tupleKeys, get?_objectKeys_of_nodup hd]
  simp only [Fields.mem_ofPairs hzip]

/-- Under the base name of a key stands what the tuple has for the key. -/
theorem get?_tupleKeys_of_mem (hbase : (names.map Key.base).Nodup)
    (hlen : tuple.length = names.length) (h : (key, a) ∈ names.zip tuple) :
    (tupleKeys names tuple).get? (Key.base key) = a := by
  refine Option.ext fun q => ?_
  rw [get?_tupleKeys hbase hlen]
  constructor
  · rintro ⟨key', h', he⟩
    obtain rfl := List.inj_on_of_nodup_map hbase (List.of_mem_zip h').1 (List.of_mem_zip h).1 he
    exact (congrArg Prod.snd (List.inj_on_of_nodup_map (nodup_zip hbase hlen) h' h rfl)).symm
  · rintro rfl
    exact ⟨key, h, rfl⟩

end

/-! ## Candidates -/

section
variable {key : String} {candidates : List (Option Pattern)}

/-- Outside negative mode the example of a cell is not skipped. -/
theorem exists_of_rowExample_of_hasCell {name : String} {given : Option Pattern}
    (hneg : r.negative = false) (hcell : row.hasCell name = true)
    (h : e.rowExample name p row r = .ok given) : ∃ g, given = some g := by
  unfold Engine.rowExample at h
  rw [hcell, hneg] at h
  simp only [Bool.not_true, Bool.false_eq_true, if_false] at h
  split at h
  · cases h
  · cases h
  · cases h
    exact ⟨_, rfl⟩
  · cases h

/-- The only candidate for a key with a cell is the value of the cell. -/
theorem keyCandidates_of_hasCell (hneg : r.negative = false)
    (hcell : row.hasCell (Key.base key) = true)
    (h : keyCandidates (Engine.ofBudget n) source key p row r = .ok candidates) :
    ∃ v, candidates = [some (.exact v)] ∧ (v.StandsForItself r → ¬ p.Rejects v r) := by
  rcases keyCandidates_cases h with ⟨given, hgiven, rfl⟩ | ⟨hnone, -⟩
  · obtain ⟨v, rfl, hv⟩ := Engine.exists_exact_of_rowExample_of_alike (.refl r) hgiven
    exact ⟨v, rfl, hv⟩
  · obtain ⟨g, hg⟩ := exists_of_rowExample_of_hasCell hneg hcell hnone
    cases hg

/-- The candidates for a key without a cell are the variants of its pattern and, if it is optional,
absence; neighbours that are equal are one. -/
theorem keyCandidates_of_not_hasCell (hcell : row.hasCell (Key.base key) = false)
    (h : keyCandidates e source key p row r = .ok candidates) :
    ∃ l qs, source p (row.stepDown (Key.base key)) r = .ok l ∧ capped l r = .ok qs ∧
      candidates = (qs.map some ++ if Key.isOptional key then [none] else []).eraseReps := by
  have hnone : e.rowExample (Key.base key) p row r = .ok none := by
    rw [Engine.rowExample, hcell]
    rfl
  rcases keyCandidates_cases h with ⟨given, hgiven, -⟩ | ⟨-, hcandidates⟩
  · cases hnone.symm.trans hgiven
  · exact hcandidates

/-- Only an optional key may be left out. -/
theorem isOptional_of_none_mem (h : keyCandidates e source key p row r = .ok candidates)
    (hnone : none ∈ candidates) : Key.isOptional key = true := by
  rcases cases_of_mem_keyCandidates h hnone with ⟨_, -, he⟩ | ⟨_, _, -, -, he⟩ | ⟨-, hoptional⟩
  · cases he
  · cases he
  · exact hoptional

/-- Equal candidates are both present or both absent. -/
theorem isSome_eq_of_beq {a b : Option Pattern} (h : (a == b) = true) : a.isSome = b.isSome := by
  cases a <;> cases b <;> first | rfl | cases h

/-- There are candidates for an optional key without a cell by which it is there, and by which it is
left out. -/
theorem exists_candidate_of_optional (hcap : 0 < r.config.maxCombinations)
    (hp : source.Begins r p) (hoptional : Key.isOptional key = true)
    (hcell : row.hasCell (Key.base key) = false)
    (h : keyCandidates e source key p row r = .ok candidates) (present : Bool) :
    ∃ a ∈ candidates, a.isSome = present := by
  obtain ⟨l, qs, hlist, hqs, rfl⟩ := keyCandidates_of_not_hasCell hcell h
  obtain ⟨q, hq⟩ := List.exists_mem_of_ne_nil qs (ne_nil_of_capped hcap (hp _ _ hlist) hqs)
  obtain ⟨a, ha, hpresent⟩ :
      ∃ a ∈ qs.map some ++ if Key.isOptional key then [none] else [], a.isSome = present := by
    rw [if_pos hoptional]
    cases present with
    | true => exact ⟨some q, List.mem_append_left _ (List.mem_map_of_mem hq), rfl⟩
    | false => exact ⟨none, List.mem_append_right _ List.mem_cons_self, rfl⟩
  obtain ⟨b, hb, rfl | hsame⟩ := exists_mem_eraseReps ha
  · exact ⟨a, hb, hpresent⟩
  · exact ⟨b, hb, (isSome_eq_of_beq hsame).trans hpresent⟩

end

/-! ## Variants -/

section
variable {keys : List (String × Pattern)} {layout : Layout} {title : Option String}
  {keyed : List (String × List (Option Pattern))} {tuple : List (Option Pattern)}
  {l : LazyList Pattern}

/-- These are the candidates for the declared keys that an enumeration on some budget finds. -/
def CandidatesFor (keys : List (String × Pattern)) (row : Row) (r : Resolver)
    (keyed : List (String × List (Option Pattern))) : Prop :=
  ∃ n, List.Forall₂ (fun m k => k.1 = m.1 ∧
    keyCandidates (Engine.ofBudget n) (ofBudget n) m.1 m.2 row r = .ok k.2) (declaredKeys keys) keyed

/-- Candidates are found for the declared keys, in their order. -/
theorem CandidatesFor.names_eq (h : CandidatesFor keys row r keyed) :
    keyed.map (·.1) = (declaredKeys keys).map (·.1) := by
  obtain ⟨n, h⟩ := h
  exact (map_eq_of_forall₂ h fun m k hmk => hmk.1.symm).symm

/-- The keys that candidates are found for differ without their marks. -/
theorem CandidatesFor.nodup_base (h : CandidatesFor keys row r keyed)
    (hbase : ((declaredKeys keys).map fun m => Key.base m.1).Nodup) :
    ((keyed.map (·.1)).map Key.base).Nodup := by
  rw [h.names_eq, List.map_map]
  exact hbase

/-- The variants of an object are the objects of the tuples of a selection from the candidates for
its keys. -/
theorem exists_candidatesFor
    (h : ofBudget n (.object layout keys title) row r = .ok l) :
    ∃ keyed spec, CandidatesFor keys row r keyed ∧
      CombinationSpec.ofCandidates keyed r.config.maxCombinations = .ok spec ∧
      l.toList? = some ((spec.emitted.take r.config.maxCombinations).map fun tuple =>
        .object layout (tupleKeys spec.keys tuple) title) := by
  cases n with
  | zero => cases h
  | succ n =>
    obtain ⟨keyed, spec, hkeyed, hspec, rfl⟩ := exists_of_object h
    refine ⟨keyed, spec, ⟨n, hkeyed⟩, hspec, ?_⟩
    obtain ⟨-, rfl⟩ := CombinationSpec.ofCandidates_eq_ok_iff.1 hspec
    have hne : ∀ l ∈ (CombinationSpec.live keyed).map (·.2), l ≠ [] :=
      List.forall_mem_map.2 fun k hk => CombinationSpec.ne_nil_of_mem_live hk
    rw [LazyList.toList?_map, CombinationSpec.toList?_combinations_eq_emitted (by simp) hne,
      Option.map_some, List.map_map]
    rfl

/-- Every declared key has candidates where unions have members. -/
theorem CandidatesFor.ne_nil (h : CandidatesFor keys row r keyed)
    (hcap : 0 < r.config.maxCombinations) (hreg : r.Everywhere HasMembers)
    (hp : (Pattern.object layout keys title).Everywhere HasMembers) : ∀ k ∈ keyed, k.2 ≠ [] := by
  obtain ⟨n, h⟩ := h
  intro k hk
  obtain ⟨⟨key, p⟩, hm, -, hcandidates⟩ := exists_left_of_forall₂ h hk
  exact keyCandidates_ne_nil hcap (begins_ofBudget hreg n ⟨.refl r, hcap⟩ (hp.key hm)) hcandidates

/-- The keys of a variant of an object for a row: base names of declared keys, among them those of
the mandatory keys, and those with a cell, which are bound to its value. -/
structure Follows (keys : List (String × Pattern)) (row : Row) (r : Resolver)
    (picked : Fields Pattern) : Prop where
  declared : ∀ name ∈ picked.names, ∃ m ∈ declaredKeys keys, Key.base m.1 = name
  mandatory : ∀ m ∈ declaredKeys keys, Key.isOptional m.1 = false →
    picked.has (Key.base m.1) = true
  pinned : ∀ m ∈ declaredKeys keys, row.hasCell (Key.base m.1) = true →
    ∃ v, picked.get? (Key.base m.1) = some (.exact v) ∧
      (v.StandsForItself r → ¬ m.2.Rejects v r)

/-- Variants of an object follow the row, and there are some but not more than the cap allows. If
the cap leaves room for the longest list of candidates, an optional key without a cell is there in a
variant and left out in another one. -/
structure Complete (keys : List (String × Pattern)) (row : Row) (r : Resolver)
    (keyed : List (String × List (Option Pattern))) (variants : List (Fields Pattern)) : Prop where
  ne_nil : variants ≠ []
  length_le : variants.length ≤ r.config.maxCombinations
  follows : ∀ picked ∈ variants, Follows keys row r picked
  varied : (∀ k ∈ keyed, k.2.length ≤ r.config.maxCombinations) →
    ∀ m ∈ declaredKeys keys, Key.isOptional m.1 = true → row.hasCell (Key.base m.1) = false →
      ∀ present, ∃ picked ∈ variants, picked.has (Key.base m.1) = present

/-- What holds of all candidates for a key holds of what a tuple of candidates has for it. -/
theorem CandidatesFor.exists_mem_zip (h : CandidatesFor keys row r keyed)
    (htuple : List.Forall₂ (· ∈ ·) tuple (keyed.map (·.2))) {m : String × Pattern}
    (hm : m ∈ declaredKeys keys) :
    ∃ n a candidates, (m.1, a) ∈ (keyed.map (·.1)).zip tuple ∧ a ∈ candidates ∧
      keyCandidates (Engine.ofBudget n) (ofBudget n) m.1 m.2 row r = .ok candidates := by
  obtain ⟨n, h⟩ := h
  obtain ⟨k, hk, hkey, hcandidates⟩ := exists_right_of_forall₂ h hm
  obtain ⟨a, ha, hzip⟩ := DataContract.exists_mem_zip htuple hk
  exact ⟨n, a, k.2, hkey ▸ hzip, ha, hcandidates⟩

/-- The object of a tuple of candidates follows the row. -/
theorem follows_of_tuple (hbase : ((declaredKeys keys).map fun m => Key.base m.1).Nodup)
    (hneg : r.negative = false) (h : CandidatesFor keys row r keyed)
    (htuple : List.Forall₂ (· ∈ ·) tuple (keyed.map (·.2))) :
    Follows keys row r (tupleKeys (keyed.map (·.1)) tuple) := by
  have hlen : tuple.length = (keyed.map (·.1)).length := by simpa using htuple.length_eq
  have hnames := h.nodup_base hbase
  refine ⟨fun name hname => ?_, fun m hm hmandatory => ?_, fun m hm hcell => ?_⟩
  · obtain ⟨q, hq⟩ := Option.isSome_iff_exists.1 (Fields.has_iff_mem_names.2 hname)
    obtain ⟨key, hzip, rfl⟩ := (get?_tupleKeys hnames hlen name q).1 hq
    have hkey := (List.of_mem_zip hzip).1
    rw [h.names_eq] at hkey
    obtain ⟨m, hm, rfl⟩ := List.mem_map.1 hkey
    exact ⟨m, hm, rfl⟩
  · obtain ⟨n, a, candidates, hzip, ha, hcandidates⟩ := h.exists_mem_zip htuple hm
    rw [Fields.has, get?_tupleKeys_of_mem hnames hlen hzip]
    cases a with
    | some q => rfl
    | none =>
      rw [isOptional_of_none_mem hcandidates ha] at hmandatory
      cases hmandatory
  · obtain ⟨n, a, candidates, hzip, ha, hcandidates⟩ := h.exists_mem_zip htuple hm
    obtain ⟨v, rfl, hv⟩ := keyCandidates_of_hasCell hneg hcell hcandidates
    obtain rfl := List.mem_singleton.1 ha
    exact ⟨v, get?_tupleKeys_of_mem hnames hlen hzip, hv⟩

/-- With room for the longest list of candidates there is a tuple by which an optional key without a
cell is there, and one by which it is left out. -/
theorem exists_tuple_of_optional (hbase : ((declaredKeys keys).map fun m => Key.base m.1).Nodup)
    (hcap : 0 < r.config.maxCombinations) (hreg : r.Everywhere HasMembers)
    (hp : (Pattern.object layout keys title).Everywhere HasMembers)
    (h : CandidatesFor keys row r keyed)
    (hroom : ∀ k ∈ keyed, k.2.length ≤ r.config.maxCombinations) {m : String × Pattern}
    (hm : m ∈ declaredKeys keys) (hoptional : Key.isOptional m.1 = true)
    (hcell : row.hasCell (Key.base m.1) = false) (present : Bool) :
    ∃ tuple ∈ (CombinationSpec.emitted
        ⟨keyed.map (·.1), keyed.map (·.2), r.config.maxCombinations⟩).take r.config.maxCombinations,
      (tupleKeys (keyed.map (·.1)) tuple).has (Key.base m.1) = present := by
  have hne := h.ne_nil hcap hreg hp
  have hnames := h.nodup_base hbase
  obtain ⟨n, hkeyed⟩ := h
  obtain ⟨k, hk, hkey, hcandidates⟩ := exists_right_of_forall₂ hkeyed hm
  have hbegins := begins_ofBudget hreg n ⟨.refl r, hcap⟩ (hp.key hm)
  obtain ⟨a, ha, hpresent⟩ :=
    exists_candidate_of_optional hcap hbegins hoptional hcell hcandidates present
  obtain ⟨tuple, htuple, b, hzip, hsame⟩ := CombinationSpec.exists_emitted_of_mem hne hroom hk ha
  have hlen : tuple.length = (keyed.map (·.1)).length := by
    simpa using (CombinationSpec.forall₂_of_mem_take_emitted hne htuple).length_eq
  refine ⟨tuple, htuple, ?_⟩
  rw [Fields.has, ← hkey, get?_tupleKeys_of_mem hnames hlen hzip, ← hpresent]
  rcases hsame with rfl | hsame
  · rfl
  · exact (isSome_eq_of_beq hsame).symm

/-- The variants of an object are complete: of what the candidates for its keys are, nothing that
the row gives or that a key may be is missing. -/
theorem object_complete (hbase : ((declaredKeys keys).map fun m => Key.base m.1).Nodup)
    (hneg : r.negative = false) (hreg : r.Everywhere HasMembers)
    (hp : (Pattern.object layout keys title).Everywhere HasMembers)
    (h : ofBudget n (.object layout keys title) row r = .ok l) :
    ∃ keyed variants, CandidatesFor keys row r keyed ∧
      l.toList? = some (variants.map fun picked => .object layout picked title) ∧
      Complete keys row r keyed variants := by
  obtain ⟨keyed, spec, hkeyed, hspec, hall⟩ := exists_candidatesFor h
  have hcap := (CombinationSpec.ofCandidates_eq_ok_iff.1 hspec).1
  have hne := hkeyed.ne_nil hcap hreg hp
  obtain rfl := CombinationSpec.eq_of_ofCandidates hne hspec
  have hlists : ∀ candidates ∈ keyed.map (·.2), candidates ≠ [] := List.forall_mem_map.2 hne
  refine ⟨keyed, ((CombinationSpec.emitted
    ⟨keyed.map (·.1), keyed.map (·.2), r.config.maxCombinations⟩).take
      r.config.maxCombinations).map (tupleKeys (keyed.map (·.1))), hkeyed, ?_, ?_, ?_, ?_, ?_⟩
  · rw [hall, List.map_map]
    rfl
  · simpa using ⟨Nat.ne_of_gt hcap, List.append_ne_nil_of_left_ne_nil
      (CombinationSpec.diagonal_ne_nil (by simp) hlists) _⟩
  · rw [List.length_map]
    exact List.length_take_le _ _
  · exact List.forall_mem_map.2 fun tuple htuple => follows_of_tuple hbase hneg hkeyed
      (CombinationSpec.forall₂_of_mem_take_emitted hne htuple)
  · intro hroom m hm hoptional hcell present
    obtain ⟨tuple, htuple, hhas⟩ :=
      exists_tuple_of_optional hbase hcap hreg hp hkeyed hroom hm hoptional hcell present
    exact ⟨_, List.mem_map_of_mem htuple, hhas⟩

end

/-- A visitor has a number and perhaps a nickname. -/
def visitorKeys : List (String × Pattern) :=
  [("id", .number), ("nick?", .string)]

/-- For a row with the number there are two variants of a visitor, with a nickname and without. -/
theorem visitor_complete :
    ∃ l, ofBudget 3 (.object .json visitorKeys none) (Row.ofCells [("id", "1")]) .empty = .ok l ∧
      l.toList? = some
        [.object .json [("id", .exact (.number .one)), ("nick", .string)] none,
          .object .json [("id", .exact (.number .one))] none] ∧
      ∃ keyed variants, CandidatesFor visitorKeys (Row.ofCells [("id", "1")]) .empty keyed ∧
        l.toList? = some (variants.map fun picked => .object .json picked none) ∧
        Complete visitorKeys (Row.ofCells [("id", "1")]) .empty keyed variants := by
  have hbase : ((declaredKeys visitorKeys).map fun m => Key.base m.1).Nodup := by decide
  have hmembers : (Pattern.object .json visitorKeys none).Everywhere HasMembers := by
    refine .intro trivial fun q hq => ?_
    obtain rfl | rfl : q = .number ∨ q = .string := by
      simpa [visitorKeys, Pattern.parts, declaredKeys, ellipsis] using hq
    · exact .leaf trivial rfl
    · exact .leaf trivial rfl
  have hreg : Resolver.empty.Everywhere HasMembers := fun _ _ hp => absurd hp List.not_mem_nil
  exact ⟨_, rfl, rfl, object_complete (n := 3) hbase rfl hreg hmembers rfl⟩

/-- A type that is nothing but itself. -/
def idle : Pattern :=
  .union [.reference "(Idle)"] none none

/-- A resolver that knows the idle type. -/
def idleResolver : Resolver :=
  .register .empty "Idle" idle

/-- No match against the idle type ends. -/
theorem check_idle_eq_none (n : Nat) (v : Value) :
    (Engine.ofBudget n).check (.reference "(Idle)") v idleResolver = none ∧
      (Engine.ofBudget n).check idle v idleResolver = none := by
  induction n with
  | zero => exact ⟨rfl, rfl⟩
  | succ n ih =>
    have hresolve : idleResolver.resolve "(Idle)" = .ok idle := rfl
    rw [Pattern.check_succ rfl, Pattern.check_succ rfl]
    constructor
    · show (Engine.ofBudget n).checkReference "(Idle)" v idleResolver = none
      rw [Engine.checkReference, hresolve]
      exact ih.2
    · show (Engine.ofBudget n).checkUnion [.reference "(Idle)"] v idleResolver = none
      rw [Engine.checkUnion, traverse?, ih.1]
      rfl

/-- A string or the idle type. -/
def nameOrIdle : Pattern :=
  .union [.string, .reference "(Idle)"] none none

/-- A text is read by the first member that can, but matched with all of them. -/
theorem not_accepts_nameOrIdle (v : Value) : ¬ nameOrIdle.Accepts v idleResolver := by
  rintro ⟨n, hn⟩
  cases n with
  | zero => cases hn
  | succ n =>
    have hnone : (Engine.ofBudget (n + 1)).check nameOrIdle v idleResolver = none := by
      rw [Pattern.check_succ rfl]
      show (Engine.ofBudget n).checkUnion [.string, .reference "(Idle)"] v idleResolver = none
      rw [Engine.checkUnion, traverse?, traverse?, (check_idle_eq_none n v).1]
      cases (Engine.ofBudget n).check .string v idleResolver <;> rfl
    rw [hnone] at hn
    cases hn

/-- In mock mode a text that denotes a pattern is read as itself but stands for that pattern, so the
value that a string is bound to for such a row is one that the string rejects. And a name is read
where matching it does not end. -/
theorem examples_not_accepted :
    ((Pattern.object .json [("name", .string)] none).HasVariant
        (Row.ofCells [("name", "(number)")]) (Resolver.mock .empty)
        (.object .json [("name", .exact (.string "(number)"))] none) ∧
      Pattern.string.Rejects (.string "(number)") (Resolver.mock .empty)) ∧
    (Pattern.object .json [("name", nameOrIdle)] none).HasVariant
        (Row.ofCells [("name", "Ann")]) idleResolver
        (.object .json [("name", .exact (.string "Ann"))] none) ∧
      ¬ nameOrIdle.Accepts (.string "Ann") idleResolver :=
  ⟨⟨⟨3, _, rfl, List.mem_of_getElem? (i := 0) rfl⟩, 3, _, rfl⟩,
    ⟨3, _, rfl, List.mem_of_getElem? (i := 0) rfl⟩, not_accepts_nameOrIdle _⟩

end Variants

end DataContract
