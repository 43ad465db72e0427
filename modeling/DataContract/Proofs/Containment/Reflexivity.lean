import DataContract.Proofs.Acceptance
import DataContract.Proofs.Agreement.Containment
import DataContract.Proofs.Containment.Resemblance
import DataContract.Proofs.Ranges

/-!
# Containment is reflexive

No comparison of a pattern with itself fails, nor one with a pattern that differs from it in open
objects only (`Pattern.not_excludes_of_resembles`), whatever pairs of names the comparison begins
with on its stack.

A comparison takes the contained side apart before the containing one: a reference there is
followed, and a lookup is its type, while the other side still is the reference or the lookup. So
the induction over the budget is on pairs of which the contained side resembles the containing
one or has been followed from such a pattern (`Pattern.Aligned`).
-/

namespace DataContract

namespace Pattern

/-- The names in the pattern stand for something, those of an XML type for an element, and the keys
of an object and the attributes of an element are told apart by their base names. -/
def ResolvedNode (r : Resolver) : Pattern → Prop
  | .object _ keys _ => PlainKeys keys
  | .xml shape =>
    PlainKeys shape.attributes ∧ isOpen shape.attributes = false ∧
      ∀ name, shape.typeRef = some name → ∃ base, r.resolve name = .ok (.xml base)
  | .reference name => ∃ p, r.resolve name = .ok p
  | _ => True

/-- A comparison of the two patterns, begun with a stack of pairs of names, fails on some budget. -/
def Excludes (bigger smaller : Pattern) (mine theirs : Resolver) (stack : TypeStack) : Prop :=
  ∃ n, Fails ((Engine.ofBudget n).encompasses bigger smaller mine theirs stack)

/-- A pattern that another one is found not to be compatible with excludes it. -/
theorem excludes_of_isCompatibleWith {newer older : Pattern} {mine theirs : Resolver}
    (h : Fails (newer.isCompatibleWith older mine theirs)) : newer.Excludes older mine theirs [] :=
  ⟨_, h⟩

/-- What the contained side of a comparison is replaced by: the type of a lookup and the pattern of
a reference. -/
inductive StandsFor (r : Resolver) : Pattern → Pattern → Prop where
  | lookup (key : String) (type : Pattern) : StandsFor r (.lookup key type) type
  | reference {name : String} {p : Pattern} (resolved : r.resolve name = .ok p) :
      StandsFor r (.reference name) p

/-- The second pattern is what is left of a pattern that resembles the first one after it has
been followed for some steps. -/
structure Aligned (r : Resolver) (p q : Pattern) : Prop where
  bigger : p.Everywhere (ResolvedNode r)
  smaller : q.Everywhere (ResolvedNode r)
  followed : ∃ q', Resembles p q' ∧ Relation.ReflTransGen (StandsFor r) q' q

section
variable {r : Resolver} {p q t : Pattern} {keys theirKeys : List (String × Pattern)} {key : String}

/-! ## What resembles a pattern resolves with it -/

/-- Keys that are told apart are so under patterns that resemble. -/
theorem PlainKeys.of_keyed {R : Pattern → Pattern → Prop}
    (h : List.Forall₂ (Keyed R) (declaredKeys keys) (declaredKeys theirKeys))
    (hk : PlainKeys keys) : PlainKeys theirKeys where
  nodup := by
    have hbase (ms : List (String × Pattern)) :
        ms.map (fun m => Key.base m.1) = (Fields.names ms).map Key.base := by
      rw [Fields.names, List.map_map]
      rfl
    have hnodup := hk.nodup
    rwa [hbase, ← names_eq_of_keyed h, ← hbase]
  mandatory := by
    intro w hw
    obtain ⟨m, hm, name, -⟩ := exists_left_of_forall₂ h hw
    have hname := hk.mandatory _ hm
    exact hname

/-- Objects with the same keys are open or closed together. -/
theorem isOpen_eq_of_keyed {R : Pattern → Pattern → Prop}
    (h : List.Forall₂ (Keyed R) keys theirKeys) : isOpen keys = isOpen theirKeys := by
  rw [Bool.eq_iff_iff, isOpen_iff, isOpen_iff, names_eq_of_keyed h]

/-- What resembles a pattern has its keys and its names. -/
theorem ResolvedNode.of_resembles (hs : Resembles p q) (hp : ResolvedNode r p) :
    ResolvedNode r q := by
  cases hs with
  | object layout title declared => exact PlainKeys.of_keyed declared hp
  | xml name occurrence nillable typeRef sameAttributes sameChildren =>
    obtain ⟨hplain, hclosed, hresolves⟩ := hp
    have hclosed' := isOpen_eq_of_keyed sameAttributes ▸ hclosed
    refine ⟨PlainKeys.of_keyed (R := Resembles) ?_ hplain, hclosed', hresolves⟩
    rwa [declaredKeys_of_closed hclosed, declaredKeys_of_closed hclosed']
  | reference => exact hp
  | _ => trivial

/-! ## Aligned patterns -/

/-- A pattern is aligned with what resembles it. -/
theorem Aligned.of_resembles (hp : p.Everywhere (ResolvedNode r)) (hs : Resembles p q) :
    Aligned r p q :=
  ⟨hp, hp.of_resembles ResolvedNode.of_resembles hs, q, hs, .refl⟩

/-- A condition on everything that a pattern has holds of what it stands for. -/
theorem Everywhere.of_standsFor {ok : Pattern → Prop} (hr : r.Everywhere ok) (hp : p.Everywhere ok)
    (h : StandsFor r p q) : q.Everywhere ok := by
  cases h with
  | lookup => exact hp.part List.mem_cons_self
  | reference resolved => exact hr.resolve resolved

/-- Alignment is kept where the contained side is followed. -/
theorem Aligned.follow (hr : r.Everywhere (ResolvedNode r)) (h : Aligned r p q)
    (hq : StandsFor r q t) : Aligned r p t := by
  obtain ⟨hp, hq', q', hs, hf⟩ := h
  exact ⟨hp, hq'.of_standsFor hr hq, q', hs, hf.tail hq⟩

/-- Where the first side stands for nothing else, the patterns resemble each other. -/
theorem Aligned.resembles (h : Aligned r p q) (hp : ∀ t, ¬ StandsFor r p t) : Resembles p q := by
  obtain ⟨q', hs, hf⟩ := h.followed
  cases Relation.ReflTransGen.cases_head hf with
  | inl he => exact he ▸ hs
  | inr hstep =>
    obtain ⟨t, ht, -⟩ := hstep
    cases ht with
    | lookup =>
      cases hs with
      | lookup => exact absurd (.lookup _ _) (hp _)
    | reference resolved =>
      cases hs with
      | reference => exact absurd (.reference resolved) (hp _)

/-- What the first side stands for is aligned with the second side, if that has been followed at
all. -/
theorem Aligned.unfold (h : Aligned r p q) (hr : r.Everywhere (ResolvedNode r))
    (hp : StandsFor r p t) (hq : ¬ Resembles p q) : Aligned r t q := by
  obtain ⟨q', hs, hf⟩ := h.followed
  cases Relation.ReflTransGen.cases_head hf with
  | inl he => exact absurd (he ▸ hs) hq
  | inr hstep =>
    obtain ⟨w, hw, hrest⟩ := hstep
    refine ⟨h.bigger.of_standsFor hr hp, h.smaller, w, ?_, hrest⟩
    cases hp with
    | lookup =>
      cases hs with
      | lookup key same =>
        cases hw
        exact same
    | reference resolved =>
      cases hs
      cases hw with
      | reference resolved' =>
        cases resolved.symm.trans resolved'
        exact .refl t

/-! ## Keys -/

/-- A declared key is what is found under its base name. -/
theorem keyNamed?_base (h : PlainKeys keys) (hk : (key, p) ∈ declaredKeys keys) :
    keyNamed? keys (Key.base key) = some (key, p) := by
  obtain ⟨⟨key', p'⟩, hfound⟩ :=
    Option.ne_none_iff_exists'.1 (keyNamed?_base_ne_none (mem_declaredKeys.1 hk).1)
  obtain ⟨hmandatory, hne⟩ := h.mandatory _ hk
  obtain ⟨hget, hkey⟩ := keyNamed?_eq_some hfound
  have hbase : Key.base key' = Key.base key := by
    rcases hkey with rfl | rfl
    · exact Key.base_of_mandatory hmandatory
    · exact Key.base_optional _
  have hdeclared : (key', p') ∈ declaredKeys keys := by
    refine mem_declaredKeys.2 ⟨Fields.mem_of_get? hget, ?_⟩
    rintro rfl
    exact hne (hbase ▸ rfl)
  rw [hfound, List.inj_on_of_nodup_map h.nodup hdeclared hk hbase]

end

end Pattern

namespace Engine

open List (Forall₂)
open MatchResult (isSuccess)
open Pattern (Aligned Keyed ResolvedNode Resembles StandsFor declaredKeys splitRest)

/-- The engine fails on no patterns that are aligned. -/
def Reflexive (e : Engine) (r : Resolver) : Prop :=
  ∀ p q stack, Aligned r p q → ¬ Fails (e.encompasses p q r r stack)

variable {e : Engine} {r : Resolver} {stack : TypeStack} {p q : Pattern}

/-! ## Objects and arrays -/

/-- Objects with resembling patterns under the same keys do not fail. -/
theorem not_fails_encompassesObject {layout : Layout}
    {keys theirKeys : List (String × Pattern)} {title : Option String}
    (he : e.Reflexive r) (hp : (Pattern.object layout keys title).Everywhere (ResolvedNode r))
    (hk : Forall₂ (Keyed Resembles) (declaredKeys keys) (declaredKeys theirKeys)) :
    ¬ Fails (e.encompassesObject keys title (.object layout theirKeys title) r r stack) := by
  intro hf
  obtain ⟨⟨key, p⟩, hm, hf⟩ := fails_all_traverse hf
  obtain ⟨w, hw, hmw⟩ := exists_right_of_forall₂ hk hm
  cases hmw with
  | intro _ same =>
    have hfound := Pattern.keyNamed?_base (Pattern.PlainKeys.of_keyed hk hp.here) hw
    simp only [encompassesKey, hfound, Bool.and_not_self, Bool.false_eq_true, if_false] at hf
    exact he _ _ _ (.of_resembles (hp.key hm) same) (fails_map_under.1 hf)

/-- Elements that are compared without failures give successes. -/
theorem isSuccess_encompassesElements {bigger theirs : List Pattern} {rest : Option Pattern}
    {i : Nat} {results : List MatchResult}
    (h : Forall₂ (fun p q => ¬ Fails (e.encompasses p q r r stack)) bigger theirs)
    (hres : encompassesElements e r r stack rest i bigger theirs = some results) :
    results.all isSuccess = true := by
  induction h generalizing i results with
  | nil =>
    cases hres
    rfl
  | cons hpq _ ih =>
    simp only [encompassesElements, List.head?_cons, Option.some_or, List.drop_one,
      List.tail_cons] at hres
    obtain ⟨result, hresult, hres⟩ := Option.bind_eq_some_iff.1 hres
    obtain ⟨later, hlater, hres⟩ := Option.bind_eq_some_iff.1 hres
    cases hres
    have hsucceeds : result.isSuccess = true := by
      rw [hresult] at hpq
      simpa using hpq
    simp [hsucceeds, ih hlater]

/-- Element by element nothing fails that does not fail at its place. -/
theorem not_fails_encompassesElementwise {fixed theirFixed : List Pattern}
    {rest theirRest : Option (Pattern × Nat)}
    (hfixed : Forall₂ (fun p q => ¬ Fails (e.encompasses p q r r stack)) fixed theirFixed)
    (hrest : Option.Rel (fun a b => ¬ Fails (e.encompasses a.1 b.1 r r stack)) rest theirRest) :
    ¬ Fails (e.encompassesElementwise fixed theirFixed rest theirRest r r stack) := by
  intro hf
  obtain ⟨head, hhead, hf⟩ := fails_bind.1 hf
  have hall := isSuccess_encompassesElements hfixed hhead
  cases hrest with
  | none => simp [hall] at hf
  | some hab =>
    obtain ⟨tail, htail, hf⟩ := fails_bind.1 hf
    rw [← fails_map_under, htail] at hab
    simp_all

/-- Arrays with resembling elements have the same length and do not fail. -/
theorem not_fails_encompassesArrays {elements theirElements : List Pattern}
    (he : e.Reflexive r) (hp : (Pattern.array elements).Everywhere (ResolvedNode r))
    (hs : Forall₂ Resembles elements theirElements) :
    ¬ Fails (e.encompassesArrays elements theirElements r r stack) := by
  obtain ⟨hfixed, hrest⟩ := Pattern.resembles_splitRest hs
  have hlength := hfixed.length_eq
  have hplaces : Forall₂ (fun p q => ¬ Fails (e.encompasses p q r r stack))
      (splitRest elements).1 (splitRest theirElements).1 := by
    refine ((List.forall₂_and_left _ _).2 ⟨fun p => hp.fixed, hfixed⟩).imp ?_
    exact fun p q hpq => he _ _ _ (.of_resembles hpq.1 hpq.2)
  have hlast : ∀ a, (splitRest elements).2 = some a → a.1.Everywhere (ResolvedNode r) :=
    fun a => hp.last
  unfold encompassesArrays
  generalize splitRest elements = split at *
  generalize splitRest theirElements = theirSplit at *
  obtain ⟨fixed, rest⟩ := split
  obtain ⟨theirFixed, theirRest⟩ := theirSplit
  dsimp only at hlength hplaces hlast hrest ⊢
  cases hrest with
  | none =>
    rw [if_neg (not_not_intro hlength)]
    exact not_fails_encompassesElementwise hplaces .none
  | some hab =>
    have hab := he _ _ stack (.of_resembles (hlast _ rfl) hab)
    dsimp only
    rw [if_neg (by omega)]
    exact not_fails_encompassesElementwise hplaces (.some hab)

/-! ## XML elements -/

/-- The attribute of the same name is found, and it resembles. -/
theorem not_fails_encompassesAttribute {attributes theirAttributes : List (String × Pattern)}
    {key : String} (hk : Forall₂ (Keyed Resembles) attributes theirAttributes)
    (hplain : Pattern.PlainKeys theirAttributes) (hclosed : Pattern.isOpen theirAttributes = false)
    (hm : (key, p) ∈ attributes) (he : ∀ q, Resembles p q → ¬ Fails (e.encompasses p q r r stack)) :
    ¬ Fails (e.encompassesAttribute key p theirAttributes r r stack) := by
  obtain ⟨w, hw, hmw⟩ := exists_right_of_forall₂ hk hm
  cases hmw with
  | intro _ same =>
    rw [← Pattern.declaredKeys_of_closed hclosed] at hw
    unfold encompassesAttribute
    dsimp only
    rw [fails_map_under, Pattern.keyNamed?_base hplain hw]
    simpa using he _ same

/-- Elements with resembling attributes and children do not fail. -/
theorem not_fails_encompassesParts {bigger smaller : XmlShape Pattern}
    (he : e.Reflexive r) (hp : (Pattern.xml bigger).Everywhere (ResolvedNode r))
    (hs : Resembles (.xml bigger) (.xml smaller)) :
    ¬ Fails (e.encompassesParts bigger smaller r r stack) := by
  have hpart {p q : Pattern} (hm : p ∈ (Pattern.xml bigger).parts) (hpq : Resembles p q) :
      ¬ Fails (e.encompasses p q r r stack) :=
    he _ _ _ (.of_resembles (hp.part hm) hpq)
  obtain ⟨hplain, hclosed, -⟩ := hp.here.of_resembles hs
  intro hf
  obtain ⟨attributes, ha, hf⟩ := fails_bind.1 hf
  cases hs with
  | xml name occurrence nillable typeRef sameAttributes sameChildren =>
    have hattributes : attributes.all isSuccess = true := by
      by_contra hall
      obtain ⟨⟨key, p⟩, hm, hf⟩ := exists_fails ha (Bool.eq_false_iff.2 hall)
      refine not_fails_encompassesAttribute sameAttributes hplain hclosed hm (fun q => hpart ?_) hf
      exact List.mem_append_left _ (List.mem_map_of_mem hm)
    dsimp only at hf
    rw [if_neg (not_not_intro sameChildren.length_eq)] at hf
    obtain ⟨children, hc, hf⟩ := fails_bind.1 hf
    have hchildren : children.all isSuccess = true := by
      by_contra hall
      obtain ⟨⟨p, q⟩, hm, hf⟩ := exists_fails hc (Bool.eq_false_iff.2 hall)
      refine hpart (List.mem_append_right _ (List.of_mem_zip hm).1) ?_ (fails_map_under.1 hf)
      exact List.forall₂_zip sameChildren hm
    simp [hattributes, hchildren] at hf

section
variable {steps : Nat} {shape base expanded : XmlShape Pattern} {name : String}

/-- An element without a type is its own expanded form. -/
theorem expand_of_untyped (h : shape.typeRef = none) :
    shape.expand r (steps + 1) = .ok shape := by
  rw [XmlShape.expand, h]

/-- An element of a type has the attributes and children of the type. -/
theorem expand_of_typed (h : shape.typeRef = some name) (hbase : r.resolve name = .ok (.xml base)) :
    shape.expand r (steps + 1) = (base.expand r steps).map fun base =>
      { shape with
        attributes := base.attributes
        children := base.children
        nillable := shape.nillable || base.nillable
        typeRef := none } := by
  rw [XmlShape.expand, h]
  dsimp only
  rw [hbase]

/-- The types that an element refers to are elements of which the same holds. -/
theorem everywhere_expand (hr : r.Everywhere (ResolvedNode r))
    (hp : (Pattern.xml shape).Everywhere (ResolvedNode r))
    (hx : shape.expand r steps = .ok expanded) :
    (Pattern.xml expanded).Everywhere (ResolvedNode r) := by
  induction steps generalizing shape expanded with
  | zero => cases hx
  | succ steps ih =>
    cases ht : shape.typeRef with
    | none =>
      rw [expand_of_untyped ht] at hx
      cases hx
      exact hp
    | some name =>
      obtain ⟨base, hbase⟩ := hp.here.2.2 name ht
      rw [expand_of_typed ht hbase] at hx
      obtain ⟨base', hbase', rfl⟩ := Outcome.map_eq_ok.1 hx
      have hbase' := ih (hr.resolve hbase) hbase'
      obtain ⟨hplain, hclosed, -⟩ := hbase'.here
      refine .intro ⟨hplain, hclosed, fun _ h => ?_⟩ fun q hq => hbase'.part hq
      cases h

/-- No type that an element refers to is missing. -/
theorem expand_ne_error (hr : r.Everywhere (ResolvedNode r)) (hp : ResolvedNode r (.xml shape))
    (err : ContractError) : shape.expand r steps ≠ .error err := by
  intro hx
  induction steps generalizing shape with
  | zero => cases hx
  | succ steps ih =>
    cases ht : shape.typeRef with
    | none =>
      rw [expand_of_untyped ht] at hx
      cases hx
    | some name =>
      obtain ⟨base, hbase⟩ := hp.2.2 name ht
      rw [expand_of_typed ht hbase] at hx
      cases hx' : base.expand r steps with
      | error e =>
        rw [hx'] at hx
        cases hx
        exact ih (hr.resolve hbase).here hx'
      | ok base' | unfinished =>
        rw [hx'] at hx
        cases hx

/-- Elements that resemble each other have the same type, and do so when it is put in. -/
theorem resembles_expand {bigger smaller b s : XmlShape Pattern}
    (hs : Resembles (.xml bigger) (.xml smaller)) (hp : ResolvedNode r (.xml bigger))
    (hb : bigger.expand r steps = .ok b) (hsm : smaller.expand r steps = .ok s) :
    Resembles (.xml b) (.xml s) := by
  cases steps with
  | zero => cases hb
  | succ steps =>
    cases hs with
    | xml name occurrence nillable typeRef sameAttributes sameChildren =>
      cases typeRef with
      | none =>
        cases hb
        cases hsm
        exact .xml _ _ _ _ sameAttributes sameChildren
      | some type =>
        obtain ⟨base, hbase⟩ := hp.2.2 type rfl
        rw [expand_of_typed rfl hbase] at hb hsm
        obtain ⟨base', hbase, rfl⟩ := Outcome.map_eq_ok.1 hb
        obtain ⟨base'', hbase', rfl⟩ := Outcome.map_eq_ok.1 hsm
        cases hbase.symm.trans hbase'
        exact .refl _

end

/-- Elements of one type are compared in the form of that type, any others as they are. -/
theorem not_fails_encompassesElement {bigger smaller : XmlShape Pattern}
    (he : e.Reflexive r) (hr : r.Everywhere (ResolvedNode r))
    (hp : (Pattern.xml bigger).Everywhere (ResolvedNode r))
    (hs : Resembles (.xml bigger) (.xml smaller)) :
    ¬ Fails (e.encompassesElement bigger smaller r r stack) := by
  unfold encompassesElement
  cases hb : bigger.effective r with
  | ok b =>
    cases hsm : smaller.effective r with
    | ok s =>
      exact not_fails_encompassesParts he (everywhere_expand hr hp hb)
        (resembles_expand hs hp.here hb hsm)
    | error err => exact absurd hsm (expand_ne_error hr (hp.here.of_resembles hs) err)
    | unfinished => exact not_fails_none
  | error err => exact absurd hb (expand_ne_error hr hp.here err)
  | unfinished => exact not_fails_none

/-- Elements that resemble each other have one name and one occurrence. -/
theorem not_fails_encompassesXml {bigger smaller : XmlShape Pattern}
    (he : e.Reflexive r) (hr : r.Everywhere (ResolvedNode r))
    (hp : (Pattern.xml bigger).Everywhere (ResolvedNode r))
    (hs : Resembles (.xml bigger) (.xml smaller)) :
    ¬ Fails (e.encompassesXml bigger (.xml smaller) r r stack) := by
  have helement (stack : TypeStack) : ¬ Fails (e.encompassesElement bigger smaller r r stack) :=
    not_fails_encompassesElement he hr hp hs
  have hname : bigger.name = smaller.name := by cases hs; rfl
  have hoccurrence : smaller.occurrence.exceeds bigger.occurrence = false := by
    cases hs with
    | xml name occurrence => cases occurrence <;> rfl
  unfold encompassesXml
  dsimp only
  rw [if_neg (not_not_intro hname), hoccurrence, if_neg Bool.false_ne_true]
  split
  · exact helement stack
  · split
    · simp
    · exact helement _

/-! ## Scalars, unions and references -/

/-- A union of which some member does not exclude a member of the other pattern, for each of these,
does not exclude that pattern. -/
theorem not_fails_encompassesUnion {members : List Pattern} {name : String} {mine theirs : Resolver}
    (h : ∀ m ∈ q.unionMembers, ∃ p ∈ members, ¬ Fails (e.encompasses p m mine theirs stack)) :
    ¬ Fails (e.encompassesUnion members name q mine theirs stack) := by
  intro hf
  obtain ⟨m, hm, hf⟩ := fails_all_traverse hf
  obtain ⟨p, hp, hpm⟩ := h m hm
  obtain ⟨attempts, ha, hf⟩ := fails_bind.1 hf
  obtain ⟨attempt, hmem, hattempt⟩ := exists_of_traverse? ha hp
  have hsuccess : attempt.isSuccess = true := by
    simpa [hattempt] using hpm
  rw [if_pos (List.any_eq_true.2 ⟨attempt, hmem, hsuccess⟩)] at hf
  simp at hf

/-- Each member of a union is contained in the member that resembles it. -/
theorem not_fails_union_of_resembles {members theirMembers : List Pattern} {name : String}
    (hu : q.unionMembers = theirMembers) (hs : Forall₂ Resembles members theirMembers)
    (h : ∀ p ∈ members, ∀ q, Resembles p q → ¬ Fails (e.encompasses p q r r stack)) :
    ¬ Fails (e.encompassesUnion members name q r r stack) := by
  refine not_fails_encompassesUnion fun m hm => ?_
  obtain ⟨p, hp, hpm⟩ := exists_left_of_forall₂ hs (hu ▸ hm)
  exact ⟨p, hp, h p hp m hpm⟩

/-- The second side of aligned patterns can be followed as far as no reference is left. -/
theorem aligned_resolved (hr : r.Everywhere (ResolvedNode r)) (h : Aligned r p q) :
    ∃ smaller, resolved q r = .ok smaller ∧ Aligned r p smaller ∧
      ∀ name, smaller ≠ .reference name := by
  cases q with
  | reference name =>
    obtain ⟨smaller, hsmaller⟩ := h.smaller.here
    exact ⟨smaller, hsmaller, h.follow hr (.reference hsmaller),
      (Resolver.follow_ok hsmaller).2⟩
  | _ => exact ⟨_, rfl, h, nofun⟩

/-- A name is aligned with itself, so both sides are what it stands for. -/
theorem not_fails_followed {name : String} (he : e.Reflexive r)
    (hr : r.Everywhere (ResolvedNode r)) (h : Aligned r (.reference name) q) :
    ¬ Fails (e.followed name q r r stack) := by
  obtain ⟨bigger, hbigger⟩ := h.bigger.here
  obtain ⟨smaller, hsmaller, haligned, hne⟩ := aligned_resolved hr h
  unfold followed
  rw [hbigger, hsmaller]
  refine he _ _ _ (haligned.unfold hr (.reference hbigger) ?_)
  intro hs
  cases hs
  exact hne name rfl

/-- A pair of names on the stack succeeds, and any other one is followed. -/
theorem not_fails_encompassesReference {name : String} (he : e.Reflexive r)
    (hr : r.Everywhere (ResolvedNode r)) (h : Aligned r (.reference name) q) :
    ¬ Fails (e.encompassesReference name q r r stack) := by
  rw [encompassesReference_eq]
  split
  · exact not_fails_followed he hr h
  · split
    · simp
    · exact not_fails_followed he hr h

/-! ## All patterns -/

/-- Comparison by the kind of the containing pattern of patterns that resemble each other, where
nothing stands for anything else. -/
theorem not_fails_byKind_of_resembles (he : e.Reflexive r) (hr : r.Everywhere (ResolvedNode r))
    (hp : p.Everywhere (ResolvedNode r)) (hs : Resembles p q) (hfixed : ∀ t, ¬ StandsFor r p t) :
    ¬ Fails (e.encompassesByKind p q r r stack) := by
  have hpart {t w : Pattern} (ht : t ∈ p.parts) (hw : Resembles t w) :
      ¬ Fails (e.encompasses t w r r stack) :=
    he _ _ _ (.of_resembles (hp.part ht) hw)
  cases hs with
  | scalar same =>
    have hcontains := Scalar.encompasses_of_equal same
    simp [encompassesByKind, encompassesScalar, hcontains]
  | anything => simp [encompassesByKind]
  | object layout title declared => exact not_fails_encompassesObject he hp declared
  | array same => exact not_fails_encompassesArrays he hp same
  | list title minItems same => exact hpart List.mem_cons_self same
  | rest minItems same => exact hpart List.mem_cons_self same
  | dictionary sameKey sameValue =>
    intro hf
    obtain ⟨ofKey, hkey, hf⟩ := fails_bind.1 hf
    obtain ⟨ofValue, hvalue, hf⟩ := fails_bind.1 hf
    have h := hpart List.mem_cons_self sameKey
    have h' := hpart (List.mem_cons_of_mem _ List.mem_cons_self) sameValue
    simp_all
  | xml name occurrence nillable typeRef sameAttributes sameChildren =>
    exact not_fails_encompassesXml he hr hp
      (.xml name occurrence nillable typeRef sameAttributes sameChildren)
  | union title text same =>
    exact not_fails_union_of_resembles rfl same fun t ht w hw => hpart ht hw
  | enumeration nullable title text same =>
    have hs := Resembles.parts (.enumeration nullable title text same)
    exact not_fails_union_of_resembles rfl hs fun t ht w hw => hpart ht hw
  | @exact v w same =>
    have hequal : (v == w) = true := same
    simp [encompassesByKind, encompassesExact, checkExact, hequal]
  | reference name =>
    obtain ⟨t, ht⟩ := hp.here
    exact absurd (.reference ht) (hfixed t)
  | lookup key same => exact absurd (.lookup key _) (hfixed _)
  | inString same => exact hpart List.mem_cons_self same
  | csv same => exact hpart List.mem_cons_self same

/-- Comparison of aligned patterns by the kind of the containing one; the contained side has been
followed as far as the containing one lets it. -/
theorem not_fails_byKind (he : e.Reflexive r) (hr : r.Everywhere (ResolvedNode r))
    (h : Aligned r p q) (hq : ∀ key type, q ≠ .lookup key type) :
    ¬ Fails (e.encompassesByKind p q r r stack) := by
  cases p with
  | reference name => exact not_fails_encompassesReference he hr h
  | lookup key type =>
    refine he _ _ _ (h.unfold hr (.lookup key type) ?_)
    intro hs
    cases hs with
    | lookup => exact hq _ _ rfl
  | _ => exact not_fails_byKind_of_resembles he hr h.bigger (h.resembles nofun) nofun

/-- A union on the contained side is left to patterns that deal with it. -/
theorem takesUnions_of_aligned (h : Aligned r p q) (hq : isUnion q = true) :
    takesUnions p = true := by
  cases p with
  | union | enumeration | reference | lookup | anything => rfl
  | _ =>
    have hs := h.resembles nofun
    cases hs
    cases hq

/-- A step of comparing does not fail on patterns that are aligned. -/
theorem reflexive_step (he : e.Reflexive r) (hr : r.Everywhere (ResolvedNode r))
    (h : Aligned r p q) : ¬ Fails (e.encompassesStep p q r r stack) := by
  unfold encompassesStep
  split
  · exact not_fails_byKind he hr h nofun
  · next name _ =>
    obtain ⟨smaller, hsmaller⟩ := h.smaller.here
    rw [hsmaller]
    exact he _ _ _ (h.follow hr (.reference hsmaller))
  · exact he _ _ _ (h.follow hr (.lookup _ _))
  · next hlookup _ =>
    split
    · next hu =>
      rw [Bool.and_eq_true] at hu
      simp [takesUnions_of_aligned h hu.1] at hu
    · exact not_fails_byKind he hr h hlookup

/-- On every budget the engine fails on no patterns that are aligned. -/
theorem reflexive_ofBudget (hr : r.Everywhere (ResolvedNode r)) (n : Nat) :
    (ofBudget n).Reflexive r := by
  induction n with
  | zero => exact fun _ _ _ _ => not_fails_none
  | succ n ih => exact fun _ _ _ h => reflexive_step ih hr h

end Engine

namespace Pattern

/-- A pattern is compatible with one that differs from it in open objects only, as far as a
comparison under the same resolver ends, and so it is whatever comparisons are going on. -/
theorem not_excludes_of_resembles {p q : Pattern} {r : Resolver}
    (hr : r.Everywhere (ResolvedNode r)) (hp : p.Everywhere (ResolvedNode r)) (hs : Resembles p q) :
    ¬ Fails (p.isCompatibleWith q r r) ∧ ∀ stack, ¬ p.Excludes q r r stack := by
  have hexcludes (stack : TypeStack) : ¬ p.Excludes q r r stack := by
    rintro ⟨n, hn⟩
    exact Engine.reflexive_ofBudget hr n p q stack (.of_resembles hp hs) hn
  exact ⟨fun h => hexcludes [] (excludes_of_isCompatibleWith h), hexcludes⟩

/-- Two types that refer to themselves and to each other: an object and an element. -/
def treeRegistry : Resolver :=
  { Resolver.empty with
    registry :=
      [("(Leaf)", .xml ⟨"leaf", [("id", .reference "(Node)")],
          [.xml ⟨"leaf", [], [], .multiple, true, some "(Leaf)"⟩], .once, false, none⟩),
        ("(Node)", .object .json [("...", .anything), ("leaf", .reference "(Leaf)"),
          ("next?", .nullable (.reference "(Node)"))] none)] }

/-- A record of nodes and leaves whose objects admit undeclared keys. -/
def openForest : Pattern :=
  .object .json [("...", .string),
    ("leaves?", .xml ⟨"leaves", [], [], .optional, false, some "(Leaf)"⟩),
    ("nodes", .lookup "nodes" (.listOf (.reference "(Node)")))] none

/-- The same record whose objects do not. -/
def closedForest : Pattern :=
  .object .json [("leaves?", .xml ⟨"leaves", [], [], .optional, false, some "(Leaf)"⟩),
    ("nodes", .lookup "nodes" (.listOf (.reference "(Node)")))] none

/-- The names in the registry of trees stand for something. -/
theorem treeRegistry_everywhere : treeRegistry.Everywhere (ResolvedNode treeRegistry) := by
  have hnode : (reference "(Node)").Everywhere (ResolvedNode treeRegistry) := .leaf ⟨_, rfl⟩ rfl
  have hleaf : (reference "(Leaf)").Everywhere (ResolvedNode treeRegistry) := .leaf ⟨_, rfl⟩ rfl
  have hchild : (xml ⟨"leaf", [], [], .multiple, true, some "(Leaf)"⟩).Everywhere
      (ResolvedNode treeRegistry) := by
    refine .leaf ⟨⟨by decide, by decide⟩, rfl, ?_⟩ rfl
    rintro _ ⟨rfl⟩
    exact ⟨_, rfl⟩
  have hnull : null.Everywhere (ResolvedNode treeRegistry) := .leaf trivial rfl
  intro name p hp
  rcases List.mem_cons.1 hp with hp | hp
  · cases hp
    refine .intro ⟨⟨by decide, by decide⟩, rfl, nofun⟩ ?_
    exact List.forall_mem_cons.2 ⟨hnode, List.forall_mem_singleton.2 hchild⟩
  · obtain rfl := (Prod.ext_iff.1 (List.mem_singleton.1 hp)).2
    refine .intro ⟨by decide, by decide⟩ (List.forall_mem_cons.2 ⟨hleaf, ?_⟩)
    exact List.forall_mem_singleton.2 (.intro trivial
      (List.forall_mem_cons.2 ⟨hnull, List.forall_mem_singleton.2 hnode⟩))

/-- The names in a forest stand for something. -/
theorem openForest_everywhere : openForest.Everywhere (ResolvedNode treeRegistry) := by
  have hleaves : (xml ⟨"leaves", [], [], .optional, false, some "(Leaf)"⟩).Everywhere
      (ResolvedNode treeRegistry) := by
    refine .leaf ⟨⟨by decide, by decide⟩, rfl, ?_⟩ rfl
    rintro _ ⟨rfl⟩
    exact ⟨_, rfl⟩
  have hnodes : (lookup "nodes" (.listOf (.reference "(Node)"))).Everywhere
      (ResolvedNode treeRegistry) :=
    .single trivial rfl (.single trivial rfl (.leaf ⟨_, rfl⟩ rfl))
  exact .intro ⟨by decide, by decide⟩
    (List.forall_mem_cons.2 ⟨hleaves, List.forall_mem_singleton.2 hnodes⟩)

/-- The open forest is compatible with the closed one, whatever comparisons are going on. -/
theorem openForest_not_excludes :
    Resembles openForest closedForest ∧
      openForest.Contains closedForest treeRegistry treeRegistry ∧
      ¬ Fails (openForest.isCompatibleWith closedForest treeRegistry treeRegistry) ∧
      ∀ stack, ¬ openForest.Excludes closedForest treeRegistry treeRegistry stack := by
  have hs : Resembles openForest closedForest :=
    .object .json none (.cons (.intro _ (.refl _)) (.cons (.intro _ (.refl _)) .nil))
  exact ⟨hs, ⟨12, rfl⟩,
    not_excludes_of_resembles treeRegistry_everywhere openForest_everywhere hs⟩

end Pattern

end DataContract
