import DataContract.Proofs.Variants.Soundness

/-!
# There are variants

An enumeration of variants that gives an answer gives at least one variant, where every union has a
member (`Variants.begins_ofBudget`). A structure has as many combinations as the candidates of its
parts allow, and the parts have candidates by the induction on the budget.
-/

namespace DataContract

/-- A union has members. -/
def Pattern.HasMembers : Pattern → Prop
  | .union members _ _ => members ≠ []
  | .enumeration e => e.members ≠ []
  | _ => True

namespace Variants

open Pattern (HasMembers)

variable {source : VariantSource} {r r' : Resolver} {row : Row} {p : Pattern} {n : Nat}
  {l : LazyList Pattern}

/-- A single exact variant is a variant. -/
theorem ne_nil_of_map_singleton {x : Outcome Value}
    (h : (x.map fun v => LazyList.singleton (Pattern.exact v)) = .ok l) : l ≠ .nil := by
  obtain ⟨v, -, rfl⟩ := Outcome.map_eq_ok.1 h
  exact LazyList.singleton_ne_nil _

/-- The parts of an element always give a variant of it. -/
theorem xmlParts_ne_nil {e : Engine} {shape : XmlShape Pattern}
    (h : xmlParts e source shape row r' = .ok l) : l ≠ .nil := by
  obtain ⟨shape, -, h⟩ := Outcome.bind_eq_ok.1 h
  obtain ⟨attributes, -, h⟩ := Outcome.bind_eq_ok.1 h
  obtain ⟨slots, -, h⟩ := Outcome.bind_eq_ok.1 h
  cases h
  simpa using Slots.fillings_ne_nil slots

/-- An element always has a variant. -/
theorem xml_ne_nil {e : Engine} {shape : XmlShape Pattern}
    (h : xml e source shape row r' = .ok l) : l ≠ .nil := by
  unfold xml at h
  split at h
  · exact xmlParts_ne_nil h
  · split at h
    · cases h
      exact LazyList.singleton_ne_nil _
    · exact xmlParts_ne_nil h

/-- If there are variants of the parts, there are variants of the whole. -/
theorem begins_step {e : Engine} (hreg : r.Everywhere HasMembers)
    (hs : ∀ p r', r'.Enumerates r → p.Everywhere HasMembers → source.Begins r' p)
    (hr : r'.Enumerates r) (hp : p.Everywhere HasMembers) : (step e source).Begins r' p := by
  intro row l h
  have hpart : ∀ q ∈ p.parts, source.Begins r' q := fun q hq => hs q r' hr (hp.part hq)
  cases p with
  | scalar | anything | exact =>
    cases h
    exact LazyList.singleton_ne_nil _
  | object layout keys title =>
    exact object_ne_nil hr.cap (fun m hm => hs m.2 r' hr (hp.key hm)) h
  | array elements => exact array_ne_nil h
  | list | rest | inString | csv =>
    obtain ⟨l, hlist, rfl⟩ := Outcome.map_eq_ok.1 h
    simpa using hpart _ List.mem_cons_self _ _ hlist
  | dictionary key value =>
    obtain ⟨l, hlist, rfl⟩ := Outcome.map_eq_ok.1 h
    simpa using hpart _ (List.mem_cons_of_mem _ List.mem_cons_self) _ _ hlist
  | xml shape => exact xml_ne_nil h
  | union patterns title text =>
    cases text with
    | some text => exact ne_nil_of_map_singleton h
    | none => exact members_ne_nil hp.here hpart h
  | enumeration shape =>
    have hne : shape.members ≠ [] := hp.here
    unfold step at h
    dsimp only at h
    split at h
    · exact ne_nil_of_map_singleton h
    · cases h
      simpa using hne
  | reference name =>
    unfold step at h
    dsimp only at h
    split at h
    · cases h
      exact LazyList.singleton_ne_nil _
    · next s hexpand =>
      have hsr := enumerates_of_expand hr hexpand
      split at h
      · cases h
      · next p hresolve =>
        rw [hsr.alike.resolve] at hresolve
        exact hs p s hsr (hreg.resolve hresolve) _ _ h
  | lookup key type =>
    obtain ⟨given, -, h⟩ := Outcome.bind_eq_ok.1 h
    cases given with
    | some given =>
      cases h
      exact LazyList.singleton_ne_nil _
    | none => exact hpart _ List.mem_cons_self _ _ h

/-- There are variants of every pattern in which unions have members. -/
theorem begins_ofBudget (hreg : r.Everywhere HasMembers) (n : Nat) (hr : r'.Enumerates r)
    (hp : p.Everywhere HasMembers) : (ofBudget n).Begins r' p := by
  induction n generalizing p r' with
  | zero =>
    intro row l h
    cases h
  | succ n ih => exact begins_step hreg (fun p r' hr hp => ih hr hp) hr hp

end Variants

end DataContract
