import DataContract.Proofs.Closed.Errors
import DataContract.Proofs.Negatives.Soundness
import DataContract.Proofs.Variants.Structures

/-!
# Variants of grounded patterns are grounded

A variant is put together from what is inside its pattern, from the patterns behind its names and
from exact values, and never by naming anything new. So the positive variants of a grounded pattern
are grounded (`Variants.keepsGrounded_ofBudget`), enumerating them does not end at an unknown name,
and the negative variants are grounded as well (`Negatives.keepsGrounded_ofBudget`).
-/

namespace DataContract

/-- The error is not that a name is not registered. -/
def ContractError.Known (err : ContractError) : Prop :=
  ∀ name, err ≠ .unknownPattern name

/-- An inherent error is about names that are registered. -/
theorem ContractError.IsInherent.known {err : ContractError} (h : err.IsInherent) : err.Known :=
  h.ne_unknownPattern

/-- Of grounded patterns the source gives grounded variants, or an error that is not about a name
that is not registered. -/
structure VariantSource.KeepsGrounded (source : VariantSource) : Prop where
  known {p : Pattern} {row : Row} {r : Resolver} {err : ContractError}
    (hp : p.Grounded r) (h : source p row r = .error err) : err.Known
  grounded {p q : Pattern} {row : Row} {r : Resolver} {l : LazyList Pattern}
    (hp : p.Grounded r) (h : source p row r = .ok l) (hq : q ∈ l.toList) : q.Grounded r

/-- Of grounded patterns the source gives grounded negatives. -/
structure NegativeSource.KeepsGrounded (source : NegativeSource) : Prop where
  grounded {p q : Pattern} {row : Row} {r : Resolver} (hp : p.Grounded r)
    (hq : q ∈ (source p row r).toList) : q.Grounded r

namespace Pattern

variable {r : Resolver} {p q : Pattern}

/-- A scalar names nothing. -/
theorem grounded_scalar (s : Scalar) : (scalar s).Grounded r :=
  .intro trivial (List.forall_mem_nil _)

/-- An exact value names nothing. -/
theorem grounded_exact (v : Value) : (exact v).Grounded r :=
  .intro trivial (List.forall_mem_nil _)

/-- A settled pattern with one pattern inside it, which is grounded. -/
theorem grounded_of_inner (h : p.Settled r) (hinner : p.inner = [q]) (hq : q.Grounded r) :
    p.Grounded r := by
  refine .intro h fun t ht => ?_
  have hmem : t ∈ p.inner := by
    cases p with
    | reference => cases hinner
    | _ => exact ht
  rw [hinner] at hmem
  exact List.mem_singleton.1 hmem ▸ hq

/-- A dictionary of grounded patterns is grounded. -/
theorem grounded_dictionary {key value : Pattern} (hkey : key.Grounded r)
    (hvalue : value.Grounded r) : (dictionary key value).Grounded r :=
  .intro trivial (List.forall_mem_cons.2 ⟨hkey, List.forall_mem_singleton.2 hvalue⟩)

end Pattern

open Pattern (grounded_scalar grounded_exact grounded_of_inner grounded_dictionary declaredKeys)

/-! ## Examples of rows -/

/-- An error about a cell tells of variables, references and examples, not of patterns. -/
theorem Row.known_of_cell {row : Row} {name : String} {err : ContractError}
    (h : row.cell name = .error err) : err.Known := by
  have hreason : ∃ reason, err = .row reason := by
    unfold Row.cell at h
    split at h
    · unfold Row.resolveCell at h
      split at h
      · split at h
        · dsimp only at h
          split at h
          · cases h
          · cases h
            exact ⟨_, rfl⟩
        · dsimp only at h
          split at h
          · cases h
          · cases h
            exact ⟨_, rfl⟩
      · cases h
    · cases h
      exact ⟨_, rfl⟩
  obtain ⟨reason, rfl⟩ := hreason
  exact nofun

namespace Engine

variable {e : Engine} {name : String} {p given : Pattern} {row : Row} {r : Resolver}
  {err : ContractError}

/-- Reading a cell ends in no other errors than those about the cell itself. -/
theorem known_of_readCell (h : e.readCell name p row r = .error err) : err.Known := by
  unfold readCell at h
  split at h
  · next hcell =>
    cases h
    exact Row.known_of_cell hcell
  · split at h <;> cases h

/-- The example of a row is missing, or it is not in the pattern, which is an error about the
row. -/
theorem known_of_rowExample (h : e.rowExample name p row r = .error err) : err.Known := by
  unfold rowExample at h
  split at h
  · cases h
  · split at h
    · cases h
    · next hcell =>
      cases h
      unfold cellValue at hcell
      split at hcell
      · exact known_of_readCell hcell
      · split at hcell
        · cases hcell
        · cases hcell
        · split at hcell
          · cases hcell
          · exact known_of_readCell hcell
    · cases h
    · split at h
      · cases h
      · cases h
        exact nofun

/-- The example of a row is an exact value. -/
theorem grounded_of_rowExample (h : e.rowExample name p row r = .ok (some given)) :
    given.Grounded r := by
  unfold rowExample at h
  split at h
  · cases h
  · split at h
    · cases h
    · cases h
    · cases h
      exact grounded_exact _
    · split at h <;> cases h

end Engine

namespace Variants

variable {e : Engine} {source : VariantSource} {p q : Pattern} {row : Row} {r : Resolver}
  {l : LazyList Pattern} {err : ContractError} {n : Nat}

/-! ## Objects -/

section
variable {key : String} {candidates : List (Option Pattern)} {layout : Layout}
  {keys : List (String × Pattern)} {title : Option String}

/-- The errors about a key come from its example or from the variants of its pattern. -/
theorem known_of_keyCandidates (hs : source.KeepsGrounded) (hp : p.Grounded r)
    (h : keyCandidates e source key p row r = .error err) : err.Known := by
  rcases error_of_keyCandidates h with h | ⟨-, h⟩
  · exact Engine.known_of_rowExample h
  · exact hs.known hp h

/-- The candidates for a key are its example or the variants of its pattern. -/
theorem grounded_of_keyCandidates (hs : source.KeepsGrounded) (hp : p.Grounded r)
    (h : keyCandidates e source key p row r = .ok candidates) (hq : some q ∈ candidates) :
    q.Grounded r := by
  rcases cases_of_mem_keyCandidates h hq with
    ⟨given, hgiven, he⟩ | ⟨l, q, hl, hq, he⟩ | ⟨he, -⟩
  · cases he
    exact Engine.grounded_of_rowExample hgiven
  · cases he
    exact hs.grounded hp hl hq
  · cases he

/-- The errors about an object come from one of its keys. -/
theorem known_of_object (hs : source.KeepsGrounded)
    (hp : (Pattern.object layout keys title).Grounded r)
    (h : object e source layout keys title row r = .error err) : err.Known := by
  rcases error_of_object h with ⟨key, p, hm, h⟩ | ⟨keyed, h⟩
  · exact known_of_keyCandidates hs (hp.key (Pattern.mem_declaredKeys.1 hm).1) h
  · unfold CombinationSpec.ofCandidates at h
    split at h
    · cases h
      exact nofun
    · cases h

/-- The keys of a combination have candidates for patterns. -/
theorem grounded_of_object (hs : source.KeepsGrounded)
    (hp : (Pattern.object layout keys title).Grounded r)
    (h : object e source layout keys title row r = .ok l) (hq : q ∈ l.toList) : q.Grounded r := by
  obtain ⟨keyed, spec, hkeyed, hspec, rfl⟩ := exists_of_object h
  obtain ⟨combination, hcombination, rfl⟩ := LazyList.mem_toList_map hq
  refine .intro trivial fun q hq => ?_
  obtain ⟨⟨name, q⟩, hm, rfl⟩ := List.mem_map.1 hq
  obtain ⟨⟨key, a⟩, ha, hchosen⟩ := List.mem_filterMap.1 (Fields.mem_of_mem_ofPairs hm)
  obtain ⟨q, rfl, he⟩ := Option.map_eq_some_iff.1 hchosen
  cases he
  obtain ⟨k, hk, hmem⟩ := CombinationSpec.exists_of_mem_combination hspec hcombination ha
  obtain ⟨m, hm, -, hcandidates⟩ := exists_left_of_forall₂ hkeyed hk
  exact grounded_of_keyCandidates hs (hp.key (Pattern.mem_declaredKeys.1 hm).1) hcandidates hmem

end

/-! ## Arrays and unions -/

section
variable {elements : List Pattern} {candidates : List (Option Pattern)}

/-- The errors about an element come from the variants of its pattern. -/
theorem known_of_elementCandidates (hs : source.KeepsGrounded) (hp : p.Grounded r)
    (h : elementCandidates source p row r = .error err) : err.Known := by
  rcases error_of_elementCandidates h with ⟨element, min, rfl, hsource⟩ | h
  · exact hs.known (hp.inside List.mem_cons_self) hsource
  · exact hs.known hp h

/-- The candidates for an element are the variants of its pattern, as they are or repeated. -/
theorem grounded_of_elementCandidates (hs : source.KeepsGrounded) (hp : p.Grounded r)
    (h : elementCandidates source p row r = .ok candidates) (hq : some q ∈ candidates) :
    q.Grounded r := by
  rcases elementCandidates_cases h with
    ⟨element, min, l, qs, rfl, hl, hqs, rfl⟩ | ⟨-, l, qs, hl, hqs, rfl⟩
  · rcases List.mem_append.1 hq with hq | hq
    · obtain ⟨q', hq', he⟩ := List.mem_map.1 hq
      cases he
      have hq' := hs.grounded (hp.inside List.mem_cons_self) hl (mem_of_capped hqs hq')
      exact grounded_of_inner trivial rfl hq'
    · cases List.mem_singleton.1 hq
  · obtain ⟨q', hq', he⟩ := List.mem_map.1 hq
    cases he
    exact hs.grounded hp hl (mem_of_capped hqs hq')

/-- The errors about an array come from one of its elements. -/
theorem known_of_array (hs : source.KeepsGrounded)
    (hp : (Pattern.array elements).Grounded r) (h : array source elements row r = .error err) :
    err.Known := by
  obtain ⟨p, hm, h⟩ := error_of_array h
  exact known_of_elementCandidates hs (hp.inside hm) h

/-- A variant of an array holds candidates for its elements. -/
theorem grounded_of_array (hs : source.KeepsGrounded)
    (hp : (Pattern.array elements).Grounded r) (h : array source elements row r = .ok l)
    (hq : q ∈ l.toList) : q.Grounded r := by
  obtain ⟨slots, hslots, rfl⟩ := exists_of_array h
  rw [LazyList.toList_map, LazyList.toList_ofList] at hq
  obtain ⟨filling, hfilling, rfl⟩ := List.mem_map.1 hq
  refine .intro trivial fun q hq => ?_
  obtain ⟨slot, hslot, hpick⟩ := Slots.exists_of_mem_filling hfilling hq
  obtain ⟨p, hm, hcandidates⟩ := exists_left_of_forall₂ hslots hslot
  exact grounded_of_elementCandidates hs (hp.inside hm) hcandidates hpick

/-- A variant of a union is a variant of one of its members. -/
theorem grounded_of_members {patterns : List Pattern} (hs : source.KeepsGrounded)
    (hp : ∀ p ∈ patterns, p.Grounded r) (h : members source patterns row r = .ok l)
    (hq : q ∈ l.toList) : q.Grounded r := by
  obtain ⟨p, hm, l, hsource, hq⟩ := exists_of_mem_members h hq
  exact hs.grounded (hp p hm) hsource hq

end

/-! ## All patterns -/

/-- A variant of an encoded pattern is the text of a value or encoded. -/
theorem grounded_encode {wrap : Pattern → Pattern} (hwrap : (wrap p).Grounded r) :
    (encode wrap p).Grounded r := by
  unfold encode
  split
  · exact grounded_exact _
  · exact hwrap

/-- A step of enumeration keeps the errors known. -/
theorem known_of_step (hs : source.KeepsGrounded) (hp : p.Grounded r)
    (h : step (Engine.ofBudget n) source p row r = .error err) : err.Known := by
  have hread {text : String} {f : Value → LazyList Pattern}
      (h : ((Engine.ofBudget n).parse p text r).map f = .error err) : err.Known :=
    (Engine.isInherent_of_parse hp (Outcome.map_eq_error.1 h)).known
  cases p with
  | scalar | anything | exact => cases h
  | object => exact known_of_object hs hp h
  | array => exact known_of_array hs hp h
  | list | rest | inString | csv =>
    exact hs.known (hp.inside List.mem_cons_self) (Outcome.map_eq_error.1 h)
  | dictionary key value =>
    have hvalue := hp.inside (List.mem_cons_of_mem _ List.mem_cons_self)
    exact hs.known hvalue (Outcome.map_eq_error.1 h)
  | xml => exact hp.here.elim
  | union patterns title text =>
    cases text with
    | some text => exact hread h
    | none =>
      obtain ⟨p, hm, h⟩ := error_of_members h
      exact hs.known (hp.inside hm) h
  | enumeration shape =>
    unfold step at h
    dsimp only at h
    split at h
    · exact hread h
    · cases h
  | reference name =>
    unfold step at h
    dsimp only at h
    split at h
    · cases h
    · next s hexpand =>
      have hsame := Resolver.registry_of_expand hexpand
      have hp := hp.congr hsame
      split at h
      · next hresolve =>
        cases h
        exact (hp.isInherent_of_resolve hresolve).known
      · next hresolve => exact hs.known (hp.of_resolve hresolve) h
  | lookup key type =>
    rcases Outcome.bind_eq_error.1 h with h | ⟨given, -, h⟩
    · exact Engine.known_of_rowExample h
    · cases given with
      | some given => cases h
      | none => exact hs.known (hp.inside List.mem_cons_self) h

/-- A step of enumeration keeps the variants grounded. -/
theorem grounded_of_step (hs : source.KeepsGrounded) (hp : p.Grounded r)
    (h : step e source p row r = .ok l) (hq : q ∈ l.toList) : q.Grounded r := by
  have hread {text : String} (h : (e.parse p text r).map
      (fun v => LazyList.singleton (Pattern.exact v)) = .ok l) : q.Grounded r := by
    obtain ⟨v, -, rfl⟩ := Outcome.map_eq_ok.1 h
    exact List.mem_singleton.1 hq ▸ grounded_exact v
  have hmapped {q' : Pattern} {f : Pattern → Pattern} (hq' : q'.Grounded r)
      (h : (source q' row r).map (fun l => l.map f) = .ok l)
      (hf : ∀ q, q.Grounded r → (f q).Grounded r) : q.Grounded r := by
    obtain ⟨l', hl', rfl⟩ := Outcome.map_eq_ok.1 h
    obtain ⟨q'', hq'', rfl⟩ := LazyList.mem_toList_map hq
    exact hf q'' (hs.grounded hq' hl' hq'')
  cases p with
  | scalar | anything | exact =>
    cases h
    exact List.mem_singleton.1 hq ▸ hp
  | object => exact grounded_of_object hs hp h hq
  | array => exact grounded_of_array hs hp h hq
  | list | rest =>
    exact hmapped (hp.inside List.mem_cons_self) h fun q hq => grounded_of_inner trivial rfl hq
  | dictionary key value =>
    have hvalue := hp.inside (List.mem_cons_of_mem _ List.mem_cons_self)
    exact hmapped hvalue h fun q hq => grounded_dictionary (hp.inside List.mem_cons_self) hq
  | xml => exact hp.here.elim
  | union patterns title text =>
    cases text with
    | some text => exact hread h
    | none => exact grounded_of_members hs (fun p hm => hp.inside hm) h hq
  | enumeration shape =>
    unfold step at h
    dsimp only at h
    split at h
    · exact hread h
    · cases h
      rw [LazyList.toList_ofList] at hq
      exact hp.inside hq
  | reference name =>
    unfold step at h
    dsimp only at h
    split at h
    · cases h
      exact List.mem_singleton.1 hq ▸ hp
    · next s hexpand =>
      have hsame := Resolver.registry_of_expand hexpand
      have hp := hp.congr hsame
      split at h
      · cases h
      · next hresolve =>
        exact (hs.grounded (hp.of_resolve hresolve) h hq).congr hsame.symm
  | lookup key type =>
    obtain ⟨given, hgiven, h⟩ := Outcome.bind_eq_ok.1 h
    cases given with
    | some given =>
      cases h
      exact List.mem_singleton.1 hq ▸ Engine.grounded_of_rowExample hgiven
    | none => exact hs.grounded (hp.inside List.mem_cons_self) h hq
  | inString | csv =>
    exact hmapped (hp.inside List.mem_cons_self) h fun q hq =>
      grounded_encode (grounded_of_inner trivial rfl hq)

/-- At every budget the variants of grounded patterns are grounded. -/
theorem keepsGrounded_ofBudget (n : Nat) : (ofBudget n).KeepsGrounded := by
  induction n with
  | zero => exact ⟨fun _ h => (nomatch h), fun _ h => (nomatch h)⟩
  | succ n ih =>
    exact ⟨fun hp h => known_of_step ih hp h,
      fun hp h hq => grounded_of_step ih hp h hq⟩

end Variants

namespace Negatives

variable {e : Engine} {source : NegativeSource} {p q : Pattern} {row : Row} {r : Resolver} {n : Nat}

/-- The patterns for a family of values name nothing. -/
theorem grounded_of_mem_ofFamily {f : Family} (hq : q ∈ ofFamily f) : q.Grounded r := by
  obtain ⟨s, rfl, -⟩ := exists_of_mem_ofFamily hq
  exact grounded_scalar s

/-- A corrupted key has a negative, and the others have what they had. -/
theorem grounded_of_corruptions {policy : NegativePolicy} {keys corrupted : List (String × Pattern)}
    (hs : source.KeepsGrounded) (hp : ∀ m ∈ keys, m.2.Grounded r)
    (h : corrupted ∈ (policy.corruptions source keys row r).toList) :
    ∀ m ∈ corrupted, m.2.Grounded r := by
  obtain ⟨key, p, negative, hm, hnegative, rfl⟩ := exists_of_mem_corruptions h
  intro m hm'
  rcases @Fields.mem_of_mem_set _ _ (Key.base key, negative) _ hm' with rfl | hrest
  · exact hs.grounded (hp _ hm) hnegative
  · exact hp m ((Fields.remove_sublist _ _).mem hrest)

/-- A step of enumerating negatives keeps them grounded. -/
theorem grounded_of_step (hs : source.KeepsGrounded) (hp : p.Grounded r)
    (hq : q ∈ (step e source p row r).toList) : q.Grounded r := by
  have hsame : r.inNegative.registry = r.registry := rfl
  have hnegative {p q : Pattern} (hp : p.Grounded r) (hq : q ∈ (source p row r.inNegative).toList) :
      q.Grounded r := by
    have hgrounded := hs.grounded (hp.congr hsame) hq
    exact hgrounded.congr hsame.symm
  cases p with
  | anything => cases hq
  | scalar | exact | csv =>
    rw [step, LazyList.toList_ofList] at hq
    exact grounded_of_mem_ofFamily hq
  | object layout keys title =>
    obtain ⟨corrupted, hcorrupted, rfl⟩ := LazyList.mem_toList_map hq
    have hdeclared : ∀ m ∈ declaredKeys keys, m.2.Grounded r.inNegative := by
      intro m hm
      have hkey : m.2.Grounded r := hp.key (Pattern.mem_declaredKeys.1 hm).1
      exact hkey.congr hsame
    have hgrounded := grounded_of_corruptions hs hdeclared hcorrupted
    refine .intro trivial fun q hq => ?_
    obtain ⟨m, hm, rfl⟩ := List.mem_map.1 hq
    exact (hgrounded m hm).congr hsame.symm
  | array elements =>
    obtain ⟨i, p, negative, hi, hsource, rfl⟩ := exists_of_mem_array hq
    refine .intro trivial fun q hq => ?_
    rcases List.mem_or_eq_of_mem_set hq with hq | rfl
    · exact hp.inside hq
    · exact hnegative (hp.inside (List.mem_of_getElem? hi)) hsource
  | list element title min =>
    rcases cases_of_mem_list hq with hq | ⟨negative, hsource, rfl⟩
    · obtain ⟨s, rfl, -⟩ := exists_of_mem_simple hq
      exact grounded_scalar s
    · exact grounded_of_inner trivial rfl (hnegative (hp.inside List.mem_cons_self) hsource)
  | rest element min =>
    obtain ⟨negative, hsource, rfl⟩ := LazyList.mem_toList_map hq
    exact grounded_of_inner trivial rfl (hnegative (hp.inside List.mem_cons_self) hsource)
  | dictionary key value =>
    obtain ⟨negative, hsource, rfl⟩ := LazyList.mem_toList_map hq
    have hvalue := hp.inside (List.mem_cons_of_mem _ List.mem_cons_self)
    exact grounded_dictionary (hp.inside List.mem_cons_self) (hnegative hvalue hsource)
  | xml => exact hp.here.elim
  | union members title text =>
    obtain ⟨⟨p, hm, hsource⟩, -⟩ := exists_of_mem_union hq
    exact hs.grounded (hp.inside (List.mem_of_mem_filter hm)) hsource
  | enumeration shape =>
    rw [step, LazyList.toList_ofList] at hq
    exact grounded_of_mem_ofFamily (List.mem_of_mem_filter hq)
  | reference name =>
    unfold step at hq
    dsimp only at hq
    split at hq
    · cases hq
    · next s hexpand =>
      have hsame := Resolver.registry_of_expand hexpand
      have hp := hp.congr hsame
      split at hq
      · cases hq
      · next hresolve => exact (hs.grounded (hp.of_resolve hresolve) hq).congr hsame.symm
  | lookup key type => exact hs.grounded (hp.inside List.mem_cons_self) hq
  | inString type =>
    rcases cases_of_mem_inString hq with hq | ⟨negative, hsource, -, rfl⟩
    · exact grounded_of_mem_ofFamily hq
    · exact grounded_of_inner trivial rfl (hs.grounded (hp.inside List.mem_cons_self) hsource)

/-- At every budget the negatives of grounded patterns are grounded. -/
theorem keepsGrounded_ofBudget (n : Nat) : (ofBudget n).KeepsGrounded := by
  induction n with
  | zero => exact ⟨fun _ h => (nomatch h)⟩
  | succ n ih => exact ⟨fun hp hq => grounded_of_step ih hp hq⟩

end Negatives

end DataContract
