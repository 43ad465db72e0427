import DataContract.Proofs.Everywhere
import DataContract.Proofs.Outcomes
import DataContract.Proofs.PatternEquality

/-!
# Patterns that differ in open objects only

`Pattern.Resembles` relates two patterns that are equal but for the keys that admit undeclared keys:
at any object either side may have that key, whatever stands under it. Literals and bounds are equal
as data, as everywhere.

Such patterns have parts of which the same is true, at the same places, so a condition that they
share holds everywhere in both (`Everywhere.of_resembles`).
-/

namespace DataContract

namespace Pattern

/-- One name with related patterns under it. -/
inductive Keyed (R : Pattern → Pattern → Prop) : String × Pattern → String × Pattern → Prop where
  | intro (name : String) {p q : Pattern} (related : R p q) : Keyed R (name, p) (name, q)

/-- The patterns are equal but for the keys that admit undeclared keys. -/
inductive Resembles : Pattern → Pattern → Prop where
  | scalar {s t : Scalar} (same : s.equal t = true) : Resembles (.scalar s) (.scalar t)
  | anything : Resembles .anything .anything
  | object (layout : Layout) {keys theirKeys : List (String × Pattern)} (title : Option String)
      (declared : List.Forall₂ (Keyed Resembles) (declaredKeys keys) (declaredKeys theirKeys)) :
      Resembles (.object layout keys title) (.object layout theirKeys title)
  | array {elements theirElements : List Pattern}
      (same : List.Forall₂ Resembles elements theirElements) :
      Resembles (.array elements) (.array theirElements)
  | list {p q : Pattern} (title : Option String) (minItems : Nat) (same : Resembles p q) :
      Resembles (.list p title minItems) (.list q title minItems)
  | rest {p q : Pattern} (minItems : Nat) (same : Resembles p q) :
      Resembles (.rest p minItems) (.rest q minItems)
  | dictionary {key theirKey value theirValue : Pattern} (sameKey : Resembles key theirKey)
      (sameValue : Resembles value theirValue) :
      Resembles (.dictionary key value) (.dictionary theirKey theirValue)
  | xml (name : String) (occurrence : Occurrence) (nillable : Bool) (typeRef : Option String)
      {attributes theirAttributes : List (String × Pattern)}
      {children theirChildren : List Pattern}
      (sameAttributes : List.Forall₂ (Keyed Resembles) attributes theirAttributes)
      (sameChildren : List.Forall₂ Resembles children theirChildren) :
      Resembles (.xml ⟨name, attributes, children, occurrence, nillable, typeRef⟩)
        (.xml ⟨name, theirAttributes, theirChildren, occurrence, nillable, typeRef⟩)
  | union {members theirMembers : List Pattern} (title inlineExample : Option String)
      (same : List.Forall₂ Resembles members theirMembers) :
      Resembles (.union members title inlineExample) (.union theirMembers title inlineExample)
  | enumeration {literals theirLiterals : List Value} (nullable : Bool)
      (title inlineExample : Option String)
      (same : List.Forall₂ (fun v w => v.equal w = true) literals theirLiterals) :
      Resembles (.enumeration ⟨literals, nullable, title, inlineExample⟩)
        (.enumeration ⟨theirLiterals, nullable, title, inlineExample⟩)
  | exact {v w : Value} (same : v.equal w = true) : Resembles (.exact v) (.exact w)
  | reference (name : String) : Resembles (.reference name) (.reference name)
  | lookup (key : String) {type theirType : Pattern} (same : Resembles type theirType) :
      Resembles (.lookup key type) (.lookup key theirType)
  | inString {type theirType : Pattern} (same : Resembles type theirType) :
      Resembles (.inString type) (.inString theirType)
  | csv {item theirItem : Pattern} (same : Resembles item theirItem) :
      Resembles (.csv item) (.csv theirItem)

open List (Forall₂)

variable {p q : Pattern} {keys theirKeys : List (String × Pattern)}
  {elements theirElements : List Pattern}

/-! ## Reflexivity -/

/-- Keys are related to themselves if the patterns under them are. -/
theorem forall₂_keyed_refl {R : Pattern → Pattern → Prop} (h : ∀ m ∈ keys, R m.2 m.2) :
    Forall₂ (Keyed R) keys keys :=
  List.forall₂_same.2 fun m hm => .intro m.1 (h m hm)

mutual

/-- Every pattern resembles itself, by induction on it together with lists and keys. -/
theorem Resembles.refl : ∀ p : Pattern, Resembles p p
  | .scalar s => .scalar s.equal_self
  | .anything => .anything
  | .object layout keys title =>
    .object layout title (forall₂_keyed_refl fun m hm =>
      resembles_fields keys m (List.mem_of_mem_filter hm))
  | .array elements => .array (List.forall₂_same.2 (resembles_all elements))
  | .list element title minItems => .list title minItems (.refl element)
  | .rest element minItems => .rest minItems (.refl element)
  | .dictionary key value => .dictionary (.refl key) (.refl value)
  | .xml ⟨name, attributes, children, occurrence, nillable, typeRef⟩ =>
    .xml name occurrence nillable typeRef (forall₂_keyed_refl (resembles_fields attributes))
      (List.forall₂_same.2 (resembles_all children))
  | .union members title text => .union title text (List.forall₂_same.2 (resembles_all members))
  | .enumeration ⟨_, nullable, title, text⟩ =>
    .enumeration nullable title text (List.forall₂_same.2 fun v _ => v.equal_self)
  | .exact v => .exact v.equal_self
  | .reference name => .reference name
  | .lookup key type => .lookup key (.refl type)
  | .inString type => .inString (.refl type)
  | .csv item => .csv (.refl item)

/-- Every pattern of a list resembles itself. -/
theorem resembles_all : ∀ ps : List Pattern, ∀ p ∈ ps, Resembles p p
  | [] => nofun
  | p :: ps => List.forall_mem_cons.2 ⟨.refl p, resembles_all ps⟩

/-- The pattern under every key resembles itself. -/
theorem resembles_fields : ∀ ms : List (String × Pattern), ∀ m ∈ ms, Resembles m.2 m.2
  | [] => nofun
  | (_, p) :: ms => List.forall_mem_cons.2 ⟨.refl p, resembles_fields ms⟩

end

/-! ## Parts -/

/-- A repetition counts only at the end, so anything before it stays an element. -/
theorem splitRest_cons_cons (p q : Pattern) (elements : List Pattern) :
    splitRest (p :: q :: elements) =
      (p :: (splitRest (q :: elements)).1, (splitRest (q :: elements)).2) := by
  cases p <;> rfl

/-- Arrays that resemble each other do so in the elements before the repetition and in the
repetitions. -/
theorem resembles_splitRest (h : Forall₂ Resembles elements theirElements) :
    Forall₂ Resembles (splitRest elements).1 (splitRest theirElements).1 ∧
      Option.Rel (fun a b => Resembles a.1 b.1) (splitRest elements).2
        (splitRest theirElements).2 := by
  induction h with
  | nil => exact ⟨.nil, .none⟩
  | cons hpq hrest ih =>
    cases hrest with
    | nil =>
      cases hpq with
      | rest minItems same => exact ⟨.nil, .some same⟩
      | _ => exact ⟨.cons (by constructor <;> assumption) .nil, .none⟩
    | cons =>
      rw [splitRest_cons_cons, splitRest_cons_cons]
      exact ⟨.cons hpq ih.1, ih.2⟩

/-- Repetitions that resemble each other are there together. -/
theorem forall₂_repeated {x y : Option (Pattern × Nat)}
    (h : Option.Rel (fun a b => Resembles a.1 b.1) x y) :
    Forall₂ Resembles (x.map (·.1)).toList (y.map (·.1)).toList := by
  cases h with
  | some hpq => exact .cons hpq .nil
  | none => exact .nil

/-- Related keys have related patterns. -/
theorem forall₂_values {R : Pattern → Pattern → Prop} (h : Forall₂ (Keyed R) keys theirKeys) :
    Forall₂ R (keys.map (·.2)) (theirKeys.map (·.2)) := by
  rw [List.forall₂_map_left_iff, List.forall₂_map_right_iff]
  refine h.imp ?_
  rintro _ _ ⟨_, hpq⟩
  exact hpq

/-- Related keys have the same names. -/
theorem names_eq_of_keyed {R : Pattern → Pattern → Prop} (h : Forall₂ (Keyed R) keys theirKeys) :
    Fields.names keys = Fields.names theirKeys := by
  refine map_eq_of_forall₂ h ?_
  rintro _ _ ⟨_, _⟩
  rfl

/-- Patterns that resemble each other have such parts at the same places. -/
theorem Resembles.parts (h : Resembles p q) : Forall₂ Resembles p.parts q.parts := by
  cases h with
  | object layout title declared => exact forall₂_values declared
  | array same =>
    obtain ⟨hfixed, hrest⟩ := resembles_splitRest same
    exact List.rel_append hfixed (forall₂_repeated hrest)
  | dictionary sameKey sameValue => exact .cons sameKey (.cons sameValue .nil)
  | xml name occurrence nillable typeRef sameAttributes sameChildren =>
    exact List.rel_append (forall₂_values sameAttributes) sameChildren
  | union title text same => exact same
  | enumeration nullable title text same =>
    refine List.rel_append ?_ (List.forall₂_same.2 fun p _ => .refl p)
    rw [List.forall₂_map_left_iff, List.forall₂_map_right_iff]
    exact same.imp fun _ _ => .exact
  | list title minItems same => exact .cons same .nil
  | rest minItems same => exact .cons same .nil
  | lookup key same => exact .cons same .nil
  | inString same => exact .cons same .nil
  | csv same => exact .cons same .nil
  | scalar | anything | exact | reference => exact .nil

/-- A condition that patterns share when they resemble each other holds everywhere in both. -/
theorem Everywhere.of_resembles {ok : Pattern → Prop}
    (hok : ∀ {p q : Pattern}, Resembles p q → ok p → ok q) (h : p.Everywhere ok)
    (hs : Resembles p q) : q.Everywhere ok := by
  induction h generalizing q with
  | intro here _ ih =>
    refine .intro (hok hs here) fun w hw => ?_
    obtain ⟨m, hm, hmw⟩ := exists_left_of_forall₂ hs.parts hw
    exact ih m hm hmw

end Pattern

end DataContract
