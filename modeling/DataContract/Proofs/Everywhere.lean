import DataContract.Proofs.Layer
import DataContract.Proofs.Resolution

/-!
# What holds everywhere in a pattern

A condition on patterns holds everywhere in one if it holds of it and everywhere in the patterns of
the parts that its values have. The repetition at the end of an array is no such part, but the
pattern that it repeats is; nor is the pattern under the key that admits undeclared keys.
-/

namespace DataContract

namespace Pattern

/-- The patterns of the parts of a value. -/
def parts : Pattern → List Pattern
  | .object _ keys _ => (declaredKeys keys).map (·.2)
  | .array elements => (splitRest elements).1 ++ ((splitRest elements).2.map (·.1)).toList
  | .list element _ _ => [element]
  | .rest element _ => [element]
  | .dictionary key value => [key, value]
  | .xml ⟨_, attributes, children, _, _, _⟩ => attributes.map (·.2) ++ children
  | .union members _ _ => members
  | .enumeration shape => shape.members
  | .lookup _ type => [type]
  | .inString type => [type]
  | .csv item => [item]
  | .scalar _ => []
  | .anything => []
  | .exact _ => []
  | .reference _ => []

/-- The condition holds of the pattern and everywhere in its parts. -/
inductive Everywhere (ok : Pattern → Prop) : Pattern → Prop where
  | intro {p : Pattern} (here : ok p) (parts : ∀ q ∈ p.parts, Everywhere ok q) : Everywhere ok p

namespace Everywhere

variable {ok ok' : Pattern → Prop} {p q : Pattern}

/-- The condition holds of the pattern itself. -/
theorem here (h : p.Everywhere ok) : ok p := by
  cases h with
  | intro here _ => exact here

/-- For a pattern without parts it is enough that the condition holds of it. -/
theorem leaf (h : ok p) (hparts : p.parts = []) : p.Everywhere ok :=
  .intro h (by simp [hparts])

/-- For a pattern with one part it is enough to look at both. -/
theorem single (h : ok p) (hparts : p.parts = [q]) (hq : q.Everywhere ok) : p.Everywhere ok :=
  .intro h (by simpa [hparts] using hq)

/-- The condition holds everywhere in a part. -/
theorem part (h : p.Everywhere ok) (hq : q ∈ p.parts) : q.Everywhere ok := by
  cases h with
  | intro _ parts => exact parts q hq

/-- A weaker condition holds everywhere as well. -/
theorem imp (h : p.Everywhere ok) (hok : ∀ p, ok p → ok' p) : p.Everywhere ok' := by
  induction h with
  | intro here _ ih => exact .intro (hok _ here) ih

/-- The condition holds everywhere in the pattern of a declared key. -/
theorem key {layout : Layout} {keys : List (String × Pattern)} {title : Option String}
    {name : String} (h : (object layout keys title).Everywhere ok)
    (hq : (name, q) ∈ declaredKeys keys) : q.Everywhere ok :=
  h.part (List.mem_map.2 ⟨_, hq, rfl⟩)

/-- The condition holds everywhere in an element before the repetition. -/
theorem fixed {elements : List Pattern} (h : (array elements).Everywhere ok)
    (hq : q ∈ (splitRest elements).1) : q.Everywhere ok :=
  h.part (List.mem_append_left _ hq)

/-- The condition holds everywhere in what the repetition at the end repeats. -/
theorem last {elements : List Pattern} {min : Nat} (h : (array elements).Everywhere ok)
    (hq : (splitRest elements).2 = some (q, min)) : q.Everywhere ok :=
  h.part (List.mem_append_right _ (by simp [hq]))

/-- The condition holds everywhere in the pattern for the item at an index. -/
theorem place {elements : List Pattern} {i : Nat} (h : (array elements).Everywhere ok)
    (hq : place? elements i = some q) : q.Everywhere ok := by
  rcases Option.or_eq_some_iff.1 hq with hq | ⟨-, hq⟩
  · exact h.fixed (List.mem_of_getElem? hq)
  · obtain ⟨⟨p, min⟩, hp, rfl⟩ := Option.map_eq_some_iff.1 hq
    exact h.last hp

end Everywhere

end Pattern

/-- The condition holds everywhere in the registered patterns. -/
def Resolver.Everywhere (ok : Pattern → Prop) (r : Resolver) : Prop :=
  ∀ name p, (name, p) ∈ r.registry → p.Everywhere ok

/-- What holds everywhere in the registered patterns holds of what a name stands for. -/
theorem Resolver.Everywhere.resolve {ok : Pattern → Prop} {r : Resolver} {name : String}
    {p : Pattern} (h : r.Everywhere ok) (hp : r.resolve name = .ok p) : p.Everywhere ok := by
  obtain ⟨k, hk⟩ := exists_mem_of_resolve hp
  exact h k p hk

end DataContract
