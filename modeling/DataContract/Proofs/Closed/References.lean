import DataContract.Proofs.Agreement.Matching
import DataContract.Proofs.Everywhere

/-!
# Closed patterns

A pattern is closed under a resolver if it holds no XML element and every name in it is registered
(`Pattern.Closed`). Names lead to patterns that name others. A pattern is grounded if one finds the
same wherever one comes to from it (`Pattern.Grounded`), as a closed pattern is if the registered
patterns are closed too. Then no name that is come to is unknown
(`Pattern.Grounded.knows_of_reaches`), and following references ends in a grounded pattern or in a
circle of aliases (`Pattern.Grounded.resolve`).

Here every pattern inside a pattern counts, also the one under the key that admits undeclared keys,
which no value has a part for: comparisons may come to it.
-/

namespace DataContract

namespace Pattern

/-! ## The patterns inside a pattern -/

/-- The patterns directly inside a pattern. -/
def inner : Pattern → List Pattern
  | .object _ keys _ => keys.map (·.2)
  | .array elements => elements
  | .list element _ _ => [element]
  | .rest element _ => [element]
  | .dictionary key value => [key, value]
  | .xml ⟨_, attributes, children, _, _, _⟩ => attributes.map (·.2) ++ children
  | .union members _ _ => members
  | .enumeration shape => shape.members
  | .lookup _ type => [type]
  | .inString type => [type]
  | .csv item => [item]
  | .scalar _ => []
  | .anything => []
  | .exact _ => []
  | .reference _ => []

/-- The condition holds of the pattern and of every pattern inside it. -/
inductive Throughout (ok : Pattern → Prop) : Pattern → Prop where
  | intro {p : Pattern} (here : ok p) (inner : ∀ q ∈ p.inner, Throughout ok q) : Throughout ok p

namespace Throughout

variable {ok ok' : Pattern → Prop} {p q : Pattern}

/-- The condition holds of the pattern itself. -/
theorem here (h : p.Throughout ok) : ok p := by
  cases h with
  | intro here _ => exact here

/-- The condition holds throughout every pattern inside. -/
theorem inside (h : p.Throughout ok) (hq : q ∈ p.inner) : q.Throughout ok := by
  cases h with
  | intro _ inner => exact inner q hq

/-- For a pattern with nothing inside it is enough that the condition holds of it. -/
theorem leaf (h : ok p) (hinner : p.inner = []) : p.Throughout ok :=
  .intro h (by simp [hinner])

/-- For a pattern with one pattern inside it is enough to look at both. -/
theorem single (h : ok p) (hinner : p.inner = [q]) (hq : q.Throughout ok) : p.Throughout ok :=
  .intro h (by simpa [hinner] using hq)

/-- A weaker condition holds throughout as well. -/
theorem imp (h : p.Throughout ok) (hok : ∀ p, ok p → ok' p) : p.Throughout ok' := by
  induction h with
  | intro here _ ih => exact .intro (hok _ here) ih

/-- The condition holds throughout the pattern of every key, also the one that admits undeclared
keys. -/
theorem key {layout : Layout} {keys : List (String × Pattern)} {title : Option String}
    {name : String} (h : (object layout keys title).Throughout ok) (hq : (name, q) ∈ keys) :
    q.Throughout ok :=
  h.inside (List.mem_map.2 ⟨_, hq, rfl⟩)

end Throughout

/-! ## Weights -/

section
variable {p q : Pattern} {ps : List Pattern} {fields : List (String × Pattern)}

/-- A list of patterns weighs at least as much as each of them. -/
theorem weight_le_weightOfAll (h : p ∈ ps) : p.weight ≤ weightOfAll ps := by
  induction ps with
  | nil => cases h
  | cons q ps ih =>
    rw [weightOfAll]
    rcases List.mem_cons.1 h with rfl | h
    · exact Nat.le_add_right _ _
    · exact (ih h).trans (Nat.le_add_left _ _)

/-- Keyed patterns weigh at least as much as each of them together with its key. -/
theorem length_add_weight_le_weightOfFields {m : String × Pattern} (h : m ∈ fields) :
    m.1.length + m.2.weight ≤ weightOfFields fields := by
  induction fields with
  | nil => cases h
  | cons m fields ih =>
    rw [weightOfFields]
    rcases List.mem_cons.1 h with rfl | h
    · exact Nat.le_add_right _ _
    · exact (ih h).trans (Nat.le_add_left _ _)

/-- Keyed patterns weigh at least as much as each of them. -/
theorem weight_le_weightOfFields (h : p ∈ fields.map (·.2)) : p.weight ≤ weightOfFields fields := by
  obtain ⟨m, hm, rfl⟩ := List.mem_map.1 h
  exact (Nat.le_add_left _ _).trans (length_add_weight_le_weightOfFields hm)

/-- A pattern inside another one weighs less. -/
theorem weight_lt_of_inner (h : q ∈ p.inner) : q.weight < p.weight := by
  cases p with
  | scalar | anything | exact | reference => cases h
  | object layout keys title => exact Nat.lt_one_add_iff.2 (weight_le_weightOfFields h)
  | array elements => exact Nat.lt_one_add_iff.2 (weight_le_weightOfAll h)
  | union members title text =>
    have hle : q.weight ≤ weightOfAll members := weight_le_weightOfAll h
    show q.weight < 1 + (text.getD "").length + weightOfAll members
    omega
  | list element | rest element | lookup _ element | inString element | csv element =>
    obtain rfl := List.mem_singleton.1 h
    exact Nat.lt_one_add_iff.2 (Nat.le_refl _)
  | dictionary key value =>
    show q.weight < 1 + key.weight + value.weight
    rcases List.mem_cons.1 h with rfl | h
    · omega
    · obtain rfl := List.mem_singleton.1 h
      omega
  | xml shape =>
    show q.weight < 1 + weightOfFields shape.attributes + weightOfAll shape.children
    rcases List.mem_append.1 h with h | h
    · have hle := weight_le_weightOfFields h
      omega
    · have hle := weight_le_weightOfAll h
      omega
  | enumeration shape =>
    show q.weight < 2 + (shape.inlineExample.getD "").length +
      (shape.literals.map fun v => 1 + v.weight).sum
    rcases List.mem_append.1 h with h | h
    · obtain ⟨v, hv, rfl⟩ := List.mem_map.1 h
      have hle := List.le_sum_of_mem (List.mem_map_of_mem (f := fun v => 1 + v.weight) hv)
      show 1 + v.weight < _
      omega
    · split at h
      · obtain rfl := List.mem_singleton.1 h
        show 1 < _
        omega
      · cases h

/-- What holds of a pattern if it holds of the patterns inside it holds of every pattern. -/
theorem of_inner {motive : Pattern → Prop} (step : ∀ p, (∀ q ∈ p.inner, motive q) → motive p)
    (p : Pattern) : motive p := by
  induction hn : p.weight using Nat.strongRecOn generalizing p with
  | ind n ih => exact step p fun q hq => ih q.weight (hn ▸ weight_lt_of_inner hq) q rfl

end

/-! ## Names in a pattern -/

section
variable {p q : Pattern} {ps : List Pattern} {fields : List (String × Pattern)} {name : String}

/-- The names that a pattern refers to itself, not by a pattern inside it. -/
def ownReferences : Pattern → List String
  | .reference name => [name]
  | .xml shape => shape.typeRef.toList
  | _ => []

/-- The names in a list of patterns are those in its patterns. -/
theorem mem_referencesOfAll : name ∈ referencesOfAll ps ↔ ∃ p ∈ ps, name ∈ p.references := by
  induction ps with
  | nil => simp [referencesOfAll]
  | cons p ps ih => simp [referencesOfAll, ih]

/-- The names in keyed patterns are those in the patterns. -/
theorem mem_referencesOfFields :
    name ∈ referencesOfFields fields ↔ ∃ p ∈ fields.map (·.2), name ∈ p.references := by
  induction fields with
  | nil => simp [referencesOfFields]
  | cons m fields ih => simp [referencesOfFields, ih]

/-- A name in a pattern is one of its own or in a pattern inside it. -/
theorem mem_references_iff :
    name ∈ p.references ↔ name ∈ p.ownReferences ∨ ∃ q ∈ p.inner, name ∈ q.references := by
  cases p with
  | object => simp only [references, mem_referencesOfFields, ownReferences, inner,
      List.not_mem_nil, false_or]
  | array | union => simp only [references, mem_referencesOfAll, ownReferences, inner,
      List.not_mem_nil, false_or]
  | xml shape =>
    simp only [references, ownReferences, inner, List.mem_append, mem_referencesOfFields,
      mem_referencesOfAll, or_and_right, exists_or, or_assoc]
  | enumeration shape =>
    simp only [references, ownReferences, inner, List.not_mem_nil, false_or, false_iff,
      not_exists, not_and, Enumeration.members, List.mem_append, List.mem_map]
    rintro q (⟨v, -, rfl⟩ | hq)
    · exact List.not_mem_nil
    · split at hq
      · rw [List.mem_singleton.1 hq]
        exact List.not_mem_nil
      · cases hq
  | _ => simp [references, ownReferences, inner]

/-- A name inside a pattern is a name of the pattern. -/
theorem mem_references_of_inner (hq : q ∈ p.inner) (hn : name ∈ q.references) :
    name ∈ p.references :=
  mem_references_iff.2 (.inr ⟨q, hq, hn⟩)

end

end Pattern

namespace Resolver

/-- The name, in any form, is registered. -/
def Knows (r : Resolver) (name : String) : Prop :=
  ∃ p, r.getPattern name = .ok p

/-- The pattern under the first name refers to the second one. -/
def Refers (r : Resolver) (name next : String) : Prop :=
  ∃ p, r.getPattern name = .ok p ∧ next ∈ p.references

/-- The second pattern is directly inside the first one, or it is what that stands for. -/
def Leads (r : Resolver) (p q : Pattern) : Prop :=
  q ∈ p.inner ∨ ∃ name, p = .reference name ∧ r.resolve name = .ok q

/-- The second pattern is directly inside the first one, or the first one is a name and the second
one is registered under it. -/
def Enters (r : Resolver) : Pattern → Pattern → Prop
  | .reference name, q => r.getPattern name = .ok q
  | p, q => q ∈ p.inner

/-- The name is come to from the pattern, through the patterns of any number of names. -/
def Reaches (r : Resolver) (p : Pattern) (name : String) : Prop :=
  ∃ first ∈ p.references, Relation.ReflTransGen r.Refers first name

end Resolver

namespace Pattern

/-- The pattern is no XML element, and if it is a reference its name is registered. -/
def Settled (r : Resolver) : Pattern → Prop
  | .reference name => r.Knows name
  | .xml _ => False
  | _ => True

/-- There is no XML element in the pattern, and every name in it is registered. -/
def Closed (r : Resolver) (p : Pattern) : Prop :=
  p.Throughout (Settled r)

/-- However one goes on from the pattern, there is no XML element, and every name is registered. -/
def Grounded (r : Resolver) (p : Pattern) : Prop :=
  ∀ q, Relation.ReflTransGen r.Enters p q → q.Settled r

variable {p q : Pattern} {r s : Resolver} {name : String}

/-- The pattern is no XML element. -/
def NotXml : Pattern → Prop
  | .xml _ => False
  | _ => True

/-- Without XML it is enough that the names are registered. -/
theorem closed_of_knows (hx : p.Throughout NotXml) (h : ∀ name ∈ p.references, r.Knows name) :
    p.Closed r := by
  induction hx with
  | @intro p here _ ih =>
    refine .intro ?_ fun q hq => ih q hq fun name hn => h name (mem_references_of_inner hq hn)
    cases p with
    | reference name => exact h name List.mem_cons_self
    | xml => exact here
    | _ => trivial

end Pattern

namespace Resolver

/-- The registered patterns are closed. -/
def Closed (r : Resolver) : Prop :=
  ∀ name p, (name, p) ∈ r.registry → p.Closed r

variable {r s : Resolver} {p : Pattern} {name : String}

/-- Which names are known depends on the registry alone. -/
theorem Knows.congr (h : r.Knows name) (hs : s.registry = r.registry) : s.Knows name := by
  obtain ⟨p, hp⟩ := h
  exact ⟨p, by rw [getPattern, hs, ← getPattern, hp]⟩

end Resolver

namespace Pattern

/-- Only what is registered counts. -/
theorem Closed.congr {r s : Resolver} {p : Pattern} (h : p.Closed r)
    (hs : s.registry = r.registry) : p.Closed s := by
  refine h.imp fun q hq => ?_
  cases q with
  | reference name => exact Resolver.Knows.congr hq hs
  | _ => exact hq

end Pattern

namespace Resolver

variable {r s : Resolver} {p : Pattern} {name : String}

/-- Whether the registered patterns are closed depends on the registry alone. -/
theorem Closed.congr (h : r.Closed) (hs : s.registry = r.registry) : s.Closed :=
  fun name p hp => (h name p (hs ▸ hp)).congr hs

/-- What is registered in a closed registry is closed. -/
theorem Closed.getPattern (h : r.Closed) (hp : r.getPattern name = .ok p) : p.Closed r := by
  obtain ⟨k, hk⟩ := exists_mem_of_getPattern hp
  exact h k p hk

end Resolver

/-! ## Grounded patterns -/

namespace Pattern

variable {p q : Pattern} {r s : Resolver} {name : String}

/-- From a pattern one goes on to what is inside it, unless it is a name. -/
theorem enters_of_inner (h : q ∈ p.inner) : r.Enters p q := by
  cases p with
  | reference => cases h
  | _ => exact h

/-- A grounded pattern is settled itself. -/
theorem Grounded.here (h : p.Grounded r) : p.Settled r :=
  h p .refl

/-- Where one goes on to from a grounded pattern is grounded again. -/
theorem Grounded.enter (h : p.Grounded r) (hq : r.Enters p q) : q.Grounded r :=
  fun t ht => h t (.head hq ht)

/-- A pattern inside a grounded one is grounded. -/
theorem Grounded.inside (h : p.Grounded r) (hq : q ∈ p.inner) : q.Grounded r :=
  h.enter (enters_of_inner hq)

/-- A settled pattern is grounded if everything that one goes on to from it is. -/
theorem Grounded.intro (here : p.Settled r) (enter : ∀ q, r.Enters p q → q.Grounded r) :
    p.Grounded r := by
  intro t ht
  rcases ht.cases_head with rfl | ⟨q, hq, ht⟩
  · exact here
  · exact enter q hq t ht

/-- The pattern of a key of a grounded object is grounded. -/
theorem Grounded.key {layout : Layout} {keys : List (String × Pattern)} {title : Option String}
    (h : (object layout keys title).Grounded r) (hq : (name, q) ∈ keys) : q.Grounded r :=
  h.inside (List.mem_map.2 ⟨_, hq, rfl⟩)

/-- The repetition at the end of a grounded array is grounded. -/
theorem Grounded.last {elements : List Pattern} {min : Nat} (h : (array elements).Grounded r)
    (hq : (splitRest elements).2 = some (q, min)) : q.Grounded r :=
  (h.inside (rest_mem_of_splitRest hq)).inside List.mem_cons_self

/-- The parts of a value have patterns that are inside the pattern. -/
theorem Grounded.part (h : p.Grounded r) (hq : q ∈ p.parts) : q.Grounded r := by
  cases p with
  | object layout keys title =>
    obtain ⟨⟨name, q⟩, hm, rfl⟩ := List.mem_map.1 hq
    exact h.key (mem_declaredKeys.1 hm).1
  | array elements =>
    rcases List.mem_append.1 hq with hq | hq
    · exact h.inside (mem_of_mem_splitRest hq)
    · obtain ⟨⟨q, min⟩, hrest, rfl⟩ := Option.map_eq_some_iff.1 (Option.mem_toList.1 hq)
      exact h.last hrest
  | _ => exact h.inside hq

/-- A grounded pattern is no XML element. -/
theorem Grounded.ne_xml (h : p.Grounded r) (shape : XmlShape Pattern) : p ≠ .xml shape := by
  rintro rfl
  exact h.here

/-- A closed pattern is grounded if what is registered is closed. -/
theorem Closed.grounded (hp : p.Closed r) (hr : r.Closed) : p.Grounded r := by
  intro t ht
  have hclosed : t.Closed r := by
    induction ht with
    | refl => exact hp
    | @tail q t _ hq ih =>
      cases q with
      | reference name => exact hr.getPattern hq
      | _ => exact ih.inside hq
  exact hclosed.here

/-- Only what is registered counts. -/
theorem Grounded.congr (h : p.Grounded r) (hs : s.registry = r.registry) : p.Grounded s := by
  have hget (name : String) : s.getPattern name = r.getPattern name := by
    rw [Resolver.getPattern, hs, ← Resolver.getPattern]
  have henters : s.Enters = r.Enters := by
    funext p q
    cases p with
    | reference name => exact congrArg (· = .ok q) (hget name)
    | _ => rfl
  intro t ht
  have ht := h t (henters ▸ ht)
  cases t with
  | reference name => exact Resolver.Knows.congr ht hs
  | _ => exact ht

/-- A pattern that is inside a pattern is come to. -/
theorem path_of_mem_references (h : p.Grounded r) (hn : name ∈ p.references) :
    Relation.ReflTransGen r.Enters p (.reference name) := by
  induction p using of_inner with
  | step p ih =>
    rcases mem_references_iff.1 hn with hown | ⟨q, hq, hn⟩
    · cases p with
      | reference n =>
        obtain rfl := List.mem_singleton.1 hown
        exact .refl
      | xml => exact h.here.elim
      | _ => cases hown
    · exact .head (enters_of_inner hq) (ih q hq (h.inside hq) hn)

/-- Names that a grounded pattern leads to are registered. -/
theorem Grounded.knows_of_reaches (h : p.Grounded r) (hn : r.Reaches p name) : r.Knows name := by
  obtain ⟨first, hfirst, hpath⟩ := hn
  have hgrounded : (reference name).Grounded r := by
    induction hpath with
    | refl => exact fun t ht => h t ((path_of_mem_references h hfirst).trans ht)
    | tail _ hlast ih =>
      obtain ⟨q, hq, hn⟩ := hlast
      have hq : q.Grounded r := ih.enter hq
      exact fun t ht => hq t ((path_of_mem_references hq hn).trans ht)
  exact hgrounded.here

/-- From a grounded name references lead to a grounded pattern, or nowhere. -/
theorem Grounded.follow {steps : Nat} {seen : List String} (h : (reference name).Grounded r) :
    (∃ p, r.follow steps seen name = .ok p ∧ p.Grounded r) ∨
      ∃ n, r.follow steps seen name = .error (.recursion n) := by
  induction steps generalizing seen name with
  | zero => exact .inr ⟨name, rfl⟩
  | succ steps ih =>
    obtain ⟨q, hq⟩ := h.here
    have hgrounded : q.Grounded r := h.enter hq
    rw [Resolver.follow, hq]
    split
    · exact .inr ⟨name, rfl⟩
    · cases q with
      | reference next => exact ih hgrounded
      | _ => exact .inl ⟨_, rfl, hgrounded⟩

/-- A grounded name stands for a grounded pattern, unless its aliases run in a circle. -/
theorem Grounded.resolve (h : (reference name).Grounded r) :
    (∃ p, r.resolve name = .ok p ∧ p.Grounded r) ∨ ∃ n, r.resolve name = .error (.recursion n) := by
  have hsame : r.getPattern (Name.delimited name) = r.getPattern name :=
    Resolver.getPattern_delimited r name
  refine Grounded.follow (.intro ?_ fun q hq => ?_)
  · obtain ⟨p, hp⟩ := h.here
    exact ⟨p, hsame.trans hp⟩
  · exact h.enter (hsame.symm.trans hq)

/-- What a grounded name stands for is grounded. -/
theorem Grounded.of_resolve (h : (reference name).Grounded r) (hq : r.resolve name = .ok q) :
    q.Grounded r := by
  rcases h.resolve with ⟨p, hp, hgrounded⟩ | ⟨n, hrec⟩
  · cases hp.symm.trans hq
    exact hgrounded
  · cases hrec.symm.trans hq

/-- A grounded pattern leads to grounded patterns. -/
theorem Grounded.of_leads (h : p.Grounded r) (hq : r.Leads p q) : q.Grounded r := by
  rcases hq with hq | ⟨name, rfl, hq⟩
  · exact h.inside hq
  · exact h.of_resolve hq

end Pattern

end DataContract
