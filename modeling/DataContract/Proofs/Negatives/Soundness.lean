import DataContract.Proofs.Enumerations
import DataContract.Proofs.Negatives.Structures

/-!
# Negative variants fail

What is made of a negative variant of a pattern the pattern does not accept
(`Pattern.not_accepts_of_negative`), under every policy, for every outcome of the choices and also
where the registry is recursive. The induction is on the budget of the enumeration: where the
negatives of the parts miss the parts, those of the whole miss the whole. It carries along that
negatives are of a plain form, so that only null makes null, and that they have no references where
the pattern has none.
-/

namespace DataContract

namespace Pattern

/-- A pattern of which negatives are taken: the base names of the keys of an object are plain, a
repetition is only the last element of an array, the values of a dictionary have no references, a
union is a nullable pattern, and the literals of an enumeration are checked. -/
def NegatedNode : Pattern → Prop
  | .object _ keys _ => PlainKeys keys
  | .array elements => RestLast elements
  | .dictionary _ value => value.references = []
  | .union members _ _ => ∃ q, members = [.null, q]
  | .enumeration e => e.Checked
  | .rest _ _ => False
  | .xml _ => False
  | .inString _ => False
  | _ => True

/-- The first pattern misses the second one, is of a plain form, and has no references where the
second one has none. -/
structure Spoils (q p : Pattern) (r : Resolver) : Prop where
  misses : q.Misses p r
  plain : q.isPlain = true
  referenceFree : p.Everywhere ReferenceFree → q.Everywhere ReferenceFree

end Pattern

/-- The negatives of a pattern spoil it, and those of a repetition are repetitions of what spoils
the repeated pattern. -/
structure NegativeSource.Sound (source : NegativeSource) (r : Resolver) : Prop where
  spoils {p q : Pattern} {row : Row} {r' : Resolver} (hr : r'.Alike r)
    (hp : p.Everywhere Pattern.NegatedNode) (hq : q ∈ (source p row r').toList) : q.Spoils p r
  rest {element q : Pattern} {min : Nat} {row : Row} {r' : Resolver} (hr : r'.Alike r)
    (hp : element.Everywhere Pattern.NegatedNode)
    (hq : q ∈ (source (.rest element min) row r').toList) :
    ∃ q', q = .rest q' 1 ∧ q'.Spoils element r

namespace Negatives

open Pattern (NegatedNode PlainKeys ReferenceFree declaredKeys splitRest)

variable {source : NegativeSource} {r r' : Resolver} {row : Row} {p q : Pattern} {n : Nat}

/-- Negative mode changes nothing a match depends on. -/
theorem alike_inNegative (hr : r'.Alike r) : r'.inNegative.Alike r :=
  ⟨hr.registry, hr.mockMode⟩

/-! ## Scalars -/

/-- A scalar has no references at any depth. -/
theorem referenceFree_scalar (s : Scalar) : (Pattern.scalar s).Everywhere ReferenceFree :=
  .leaf trivial rfl

/-- The scalars of other families spoil a pattern whose values are of one family. -/
theorem spoils_ofFamily {f : Family} (h : ∀ v, p.Accepts v r → Family.ofValue v = f)
    (hq : q ∈ ofFamily f) : q.Spoils p r := by
  obtain ⟨s, rfl, hs⟩ := exists_of_mem_ofFamily hq
  exact ⟨misses_scalar fun v ha he => hs (he.symm.trans (h v ha)), rfl,
    fun _ => referenceFree_scalar s⟩

/-- A wrong shape of the family of an enumeration spoils the whole enumeration. -/
theorem spoils_enumeration {shape : Enumeration} (hl : r.config.mockMode = false)
    (hc : shape.Checked)
    (hq : q ∈ (ofFamily shape.family).filter fun p => !(shape.nullable && p.isNull)) :
    q.Spoils (.enumeration shape) r := by
  obtain ⟨hq, hnull⟩ := List.mem_filter.1 hq
  obtain ⟨s, rfl, hs⟩ := exists_of_mem_ofFamily hq
  refine ⟨misses_scalar fun v ha he => ?_, rfl, fun _ => referenceFree_scalar s⟩
  rcases Pattern.family_of_enumeration hl hc ha with hfamily | ⟨hnullable, rfl⟩
  · exact hs (he.symm.trans hfamily)
  · cases s with
    | null => simp [hnullable, Pattern.isNull] at hnull
    | _ => cases he

/-- The scalars that no list accepts. -/
theorem spoils_list_scalar {element : Pattern} {title : Option String} {min : Nat}
    (hl : r.config.mockMode = false) (hq : q ∈ [Pattern.null, .number, .boolean, .string]) :
    q.Spoils (.list element title min) r := by
  obtain ⟨s, rfl, hs⟩ := exists_of_mem_simple hq
  refine ⟨misses_scalar fun v ha he => hs ?_, rfl, fun _ => referenceFree_scalar s⟩
  obtain ⟨items, rfl, -⟩ := ha.fits hl
  exact he.symm

/-- A list of one spoiled element spoils the list. -/
theorem spoils_list {element : Pattern} {title : Option String} {min : Nat}
    (hl : r.config.mockMode = false) (hq : q.Spoils element r) :
    (Pattern.list q none 1).Spoils (.list element title min) r :=
  ⟨misses_list hl hq.misses, rfl, fun hfree =>
    .single trivial rfl (hq.referenceFree (hfree.part List.mem_cons_self))⟩

/-- A dictionary of what spoils its values has entries, since there is no reference in them. -/
theorem spoils_dictionary {key value : Pattern} (hl : r.config.mockMode = false)
    (hvalue : value.Everywhere ReferenceFree) (hq : q.Spoils value r) :
    (Pattern.dictionary key q).Spoils (.dictionary key value) r := by
  have hfree := hq.referenceFree hvalue
  refine ⟨misses_dictionary hl hfree hq.misses, rfl, fun h => .intro trivial fun p hp => ?_⟩
  rcases List.mem_cons.1 hp with rfl | hp
  · exact h.part List.mem_cons_self
  · obtain rfl := List.mem_singleton.1 hp
    exact hfree

/-! ## Objects, arrays and unions -/

/-- A corruption that a policy makes of the declared keys spoils the object, open or closed. -/
theorem spoils_object {keys : List (String × Pattern)} {layout : Layout} {title : Option String}
    (hl : r.config.mockMode = false) (hs : source.Sound r) (hr : r'.Alike r)
    (hp : (Pattern.object layout keys title).Everywhere NegatedNode) {policy : NegativePolicy}
    {corrupted : List (String × Pattern)}
    (hq : corrupted ∈ (policy.corruptions source (declaredKeys keys) row r').toList) :
    (Pattern.object layout corrupted title).Spoils (.object layout keys title) r := by
  obtain ⟨key, p, negative, hm, hnegative, rfl⟩ := exists_of_mem_corruptions hq
  have hspoils := hs.spoils hr (hp.key hm) hnegative
  refine ⟨misses_object hl hp.here hm hspoils.misses, rfl, fun hfree => ?_⟩
  refine .intro trivial fun q hq => ?_
  obtain ⟨⟨name, q⟩, hmem, rfl⟩ := List.mem_map.1 hq
  have hmem := (perm_corrupt hp.here hm negative).mem_iff.1 (Pattern.mem_declaredKeys.1 hmem).1
  rcases List.mem_cons.1 hmem with he | hmem
  · cases he
    exact hspoils.referenceFree (hfree.key hm)
  · exact hfree.key ((Fields.remove_sublist _ _).mem hmem)

/-- An array of patterns without references has none. -/
theorem referenceFree_array {elements : List Pattern}
    (h : ∀ p ∈ elements, p.Everywhere ReferenceFree) :
    (Pattern.array elements).Everywhere ReferenceFree := by
  refine .intro trivial fun q hq => ?_
  rcases List.mem_append.1 hq with hq | hq
  · exact h q (Pattern.mem_of_mem_splitRest hq)
  · obtain ⟨⟨p, min⟩, hrest, rfl⟩ := Option.map_eq_some_iff.1 (Option.mem_toList.1 hq)
    exact (h _ (Pattern.rest_mem_of_splitRest hrest)).part List.mem_cons_self

/-- The elements of an array without references have none. -/
theorem referenceFree_of_mem {elements : List Pattern}
    (h : (Pattern.array elements).Everywhere ReferenceFree) (hp : p ∈ elements) :
    p.Everywhere ReferenceFree := by
  rcases Pattern.mem_splitRest hp with hfixed | ⟨q, min, rfl, hrest⟩
  · exact h.fixed hfixed
  · exact .single trivial rfl (h.last hrest)

/-- A negative of an array spoils it, whether it changed a fixed element or the rest. -/
theorem spoils_array {elements : List Pattern} (hl : r.config.mockMode = false)
    (hs : source.Sound r) (hr : r'.Alike r)
    (hp : (Pattern.array elements).Everywhere NegatedNode)
    (hq : q ∈ (array source elements row r').toList) : q.Spoils (.array elements) r := by
  obtain ⟨i, p, negative, hi, hnegative, rfl⟩ := exists_of_mem_array hq
  have hr := alike_inNegative hr
  have hset (hfree : p.Everywhere ReferenceFree → negative.Everywhere ReferenceFree)
      (h : (Pattern.array elements).Everywhere ReferenceFree) :
      (Pattern.array (elements.set i negative)).Everywhere ReferenceFree := by
    refine referenceFree_array fun q hq => ?_
    rcases List.mem_or_eq_of_mem_set hq with hq | rfl
    · exact referenceFree_of_mem h hq
    · exact hfree (referenceFree_of_mem h (List.mem_of_getElem? hi))
  rcases Pattern.mem_splitRest (List.mem_of_getElem? hi) with hfixed | ⟨element, min, rfl, hrest⟩
  · have hp' := hp.fixed hfixed
    have hspoils := hs.spoils hr hp' hnegative
    have hnot : p.isRest = false := by
      cases p with
      | rest => exact hp'.here.elim
      | _ => rfl
    exact ⟨misses_set_fixed hl hp.here hi hnot (Pattern.isRest_of_isPlain hspoils.plain)
      hspoils.misses, rfl, hset hspoils.referenceFree⟩
  · obtain ⟨q, rfl, hspoils⟩ := hs.rest hr (hp.last hrest) hnegative
    refine ⟨misses_set_rest hl hp.here hi hspoils.misses, rfl, hset fun hfree => ?_⟩
    exact .single trivial rfl (hspoils.referenceFree (hfree.part List.mem_cons_self))

/-- The pattern may be a negative of a union: it is null only if the union has no null, and no
member contains it. -/
structure IsOutside (e : Engine) (members : List Pattern) (r : Resolver) (q : Pattern) : Prop where
  isNull (h : Pattern.hasNull members = true) : q.isNull = false
  uncontained :
    any? (fun m => (e.encompasses m q r r []).map MatchResult.isSuccess) members = some false

/-- What is kept is outside of the union. -/
theorem mem_of_mem_outside {e : Engine} {members seen : List Pattern} {l : LazyList Pattern}
    (hq : q ∈ (outside e members r seen l).toList) : q ∈ l.toList ∧ IsOutside e members r q := by
  induction l generalizing seen with
  | nil => cases hq
  | stalled => cases hq
  | cons negative rest ih =>
    have hrest {seen : List Pattern} (hq : q ∈ (outside e members r seen (rest ())).toList) :
        q ∈ (LazyList.cons negative rest).toList ∧ IsOutside e members r q :=
      (ih () hq).imp_left (List.mem_cons_of_mem _)
    rw [outside] at hq
    split at hq
    · exact hrest hq
    · next hnull =>
      split at hq
      · cases hq
      · exact hrest hq
      · next hany =>
        have hcons {seen : List Pattern}
            (hq : q ∈ negative :: (outside e members r seen (rest ())).toList) :
            q ∈ (LazyList.cons negative rest).toList ∧ IsOutside e members r q := by
          rcases List.mem_cons.1 hq with rfl | hq
          · refine ⟨List.mem_cons_self, fun h => ?_, hany⟩
            simpa [h] using hnull
          · exact hrest hq
        split at hq
        · split at hq
          · exact hrest hq
          · exact hcons hq
        · exact hcons hq

/-- The negatives of a union are negatives of its members that are outside of it. -/
theorem exists_of_mem_union {e : Engine} {members : List Pattern}
    (hq : q ∈ (union e source members row r).toList) :
    (∃ p ∈ Pattern.nonNull members, q ∈ (source p row r).toList) ∧ IsOutside e members r q := by
  obtain ⟨hmem, houtside⟩ := mem_of_mem_outside hq
  obtain ⟨p, hp, hsource⟩ := LazyList.mem_toList_flatMap hmem
  rw [LazyList.toList_ofList] at hp
  exact ⟨⟨p, hp, hsource⟩, houtside⟩

/-- No member contains what is outside of a union, on whatever budget. -/
theorem IsOutside.not_contains {members : List Pattern} {m : Pattern} (hr : r'.Alike r)
    (h : IsOutside (Engine.ofBudget n) members r' q) (hm : m ∈ members) : ¬ m.Contains q r r := by
  rintro ⟨k, hk⟩
  have hfails := eq_some_false_of_any? h.uncontained hm
  obtain ⟨result, hresult, hfalse⟩ := Option.map_eq_some_iff.1 hfails
  exact Engine.same_containment hr (hresult ▸ fails_some.2 hfalse) hk

/-- A negative of a nullable pattern spoils it: it is neither null nor accepted by the other
member. -/
theorem spoils_union {title text : Option String} (hl : r.config.mockMode = false)
    (hs : source.Sound r) (hr : r'.Alike r) {e : Engine} (hp : p.Everywhere NegatedNode)
    (hq : q ∈ (union e source [.null, p] row r').toList) :
    q.Spoils (.union [.null, p] title text) r := by
  obtain ⟨⟨p', hp', hsource⟩, houtside⟩ := exists_of_mem_union hq
  obtain rfl : p' = p := by
    rcases List.mem_filter.1 hp' with ⟨hmem, hnot⟩
    rcases List.mem_cons.1 hmem with rfl | hmem
    · cases hnot
    · exact List.mem_singleton.1 hmem
  have hspoils := hs.spoils hr hp hsource
  refine ⟨fun n r' v hr hf hmade ha => ?_, hspoils.plain, fun hfree => ?_⟩
  · have hfits : Pattern.FitsUnion [.null, p'] v fun p v => p.Accepts v r := ha.fits hl
    rcases hfits with ⟨m, hm, hmember⟩ | hnil
    · rcases List.mem_cons.1 hm with rfl | hm
      · obtain rfl := Scalar.eq_null_of_check (hmember.fits hl)
        have := houtside.isNull rfl
        rw [isNull_of_made hspoils.plain hmade] at this
        cases this
      · obtain rfl := List.mem_singleton.1 hm
        exact hspoils.misses n r' v hr hf hmade hmember
    · rw [hnil] at hp'
      cases hp'
  · exact hspoils.referenceFree (hfree.part (List.mem_cons_of_mem _ List.mem_cons_self))

/-! ## References -/

/-- What spoils the pattern behind a name spoils the name. -/
theorem spoils_reference {name : String} (hl : r.config.mockMode = false)
    (hresolve : r.resolve name = .ok p) (hq : q.Spoils p r) : q.Spoils (.reference name) r := by
  refine ⟨fun n r' v hr hf hmade ha => ?_, hq.plain, fun hfree => hfree.here.elim⟩
  exact hq.misses n r' v hr hf hmade ((Pattern.accepts_reference_iff hl hresolve).1 ha)

/-- A negative of a looked-up pattern spoils the lookup. -/
theorem spoils_lookup {key : String} {type : Pattern} (hl : r.config.mockMode = false)
    (hq : q.Spoils type r) : q.Spoils (.lookup key type) r :=
  ⟨fun n r' v hr hf hmade ha => hq.misses n r' v hr hf hmade (ha.fits hl), hq.plain,
    fun hfree => hq.referenceFree (hfree.part List.mem_cons_self)⟩

/-- A list of patterns without references has members without references. -/
theorem references_of_all {patterns : List Pattern} (hq : q ∈ patterns)
    (h : Pattern.referencesOfAll patterns = []) : q.references = [] := by
  induction patterns with
  | nil => cases hq
  | cons p patterns ih =>
    obtain ⟨hp, hrest⟩ := List.append_eq_nil_iff.1 h
    rcases List.mem_cons.1 hq with rfl | hq
    · exact hp
    · exact ih hq hrest

/-- An object without references has fields without references. -/
theorem references_of_fields {fields : List (String × Pattern)} {name : String}
    (hq : (name, q) ∈ fields) (h : Pattern.referencesOfFields fields = []) :
    q.references = [] := by
  induction fields with
  | nil => cases hq
  | cons m fields ih =>
    obtain ⟨hp, hrest⟩ := List.append_eq_nil_iff.1 h
    rcases List.mem_cons.1 hq with rfl | hq
    · exact hp
    · exact ih hq hrest

/-- The parts of a pattern without references have none. -/
theorem references_of_part (hx : ∀ shape, p ≠ .xml shape) (hq : q ∈ p.parts)
    (h : p.references = []) : q.references = [] := by
  cases p with
  | scalar | anything | exact | reference => cases hq
  | object layout keys title =>
    obtain ⟨⟨name, q⟩, hm, rfl⟩ := List.mem_map.1 hq
    exact references_of_fields (Pattern.mem_declaredKeys.1 hm).1 h
  | array elements =>
    rcases List.mem_append.1 hq with hq | hq
    · exact references_of_all (Pattern.mem_of_mem_splitRest hq) h
    · obtain ⟨⟨q, min⟩, hrest, rfl⟩ := Option.map_eq_some_iff.1 (Option.mem_toList.1 hq)
      have hlast : (Pattern.rest q min).references = [] :=
        references_of_all (Pattern.rest_mem_of_splitRest hrest) h
      exact hlast
  | list | rest | lookup | inString | csv =>
    obtain rfl := List.mem_singleton.1 hq
    exact h
  | dictionary key value =>
    obtain ⟨hkey, hvalue⟩ := List.append_eq_nil_iff.1 h
    rcases List.mem_cons.1 hq with rfl | hq
    · exact hkey
    · obtain rfl := List.mem_singleton.1 hq
      exact hvalue
  | xml shape => exact absurd rfl (hx shape)
  | union members => exact references_of_all hq h
  | enumeration shape =>
    rcases List.mem_append.1 hq with hq | hq
    · obtain ⟨w, -, rfl⟩ := List.mem_map.1 hq
      rfl
    · split at hq
      · obtain rfl := List.mem_singleton.1 hq
        rfl
      · cases hq

/-- A pattern that names no other pattern has no references anywhere. -/
theorem referenceFree_of_references (hp : p.Everywhere NegatedNode) (h : p.references = []) :
    p.Everywhere ReferenceFree := by
  induction hp with
  | @intro p here parts ih =>
    refine .intro ?_ fun q hq => ih q hq (references_of_part ?_ hq h)
    · cases p with
      | reference name => cases h
      | xml => exact here.elim
      | _ => trivial
    · rintro shape rfl
      exact here.elim

/-! ## All patterns -/

/-- Negatives that spoil the parts make negatives that spoil the whole. -/
theorem spoils_step (hl : r.config.mockMode = false) (hreg : r.Everywhere NegatedNode)
    (hs : source.Sound r) (hr : r'.Alike r) (hp : p.Everywhere NegatedNode)
    (hq : q ∈ (step (Engine.ofBudget n) source p row r').toList) : q.Spoils p r := by
  cases p with
  | scalar s =>
    rw [step, LazyList.toList_ofList] at hq
    exact spoils_ofFamily (fun v ha => Scalar.family_of_check (ha.fits hl)) hq
  | anything => cases hq
  | exact w =>
    rw [step, LazyList.toList_ofList] at hq
    refine spoils_ofFamily (fun v ha => ?_) hq
    have heq : w.equal v = true := ha.fits hl
    exact (Family.ofValue_congr heq).symm
  | object layout keys title =>
    obtain ⟨corrupted, hcorrupted, rfl⟩ := LazyList.mem_toList_map hq
    exact spoils_object hl hs (alike_inNegative hr) hp hcorrupted
  | array elements => exact spoils_array hl hs hr hp hq
  | list element title min =>
    rcases cases_of_mem_list hq with hq | ⟨negative, hnegative, rfl⟩
    · exact spoils_list_scalar hl hq
    · exact spoils_list hl (hs.spoils (alike_inNegative hr) (hp.part List.mem_cons_self) hnegative)
  | dictionary key value =>
    obtain ⟨negative, hnegative, rfl⟩ := LazyList.mem_toList_map hq
    have hvalue := hp.part (List.mem_cons_of_mem _ List.mem_cons_self)
    exact spoils_dictionary hl (referenceFree_of_references hvalue hp.here)
      (hs.spoils (alike_inNegative hr) hvalue hnegative)
  | union members title text =>
    obtain ⟨p, rfl⟩ := hp.here
    exact spoils_union hl hs hr (hp.part (List.mem_cons_of_mem _ List.mem_cons_self)) hq
  | enumeration shape =>
    rw [step, LazyList.toList_ofList] at hq
    exact spoils_enumeration hl hp.here hq
  | reference name =>
    unfold step at hq
    dsimp only at hq
    split at hq
    · cases hq
    · next s hexpand =>
      have hsr := (Resolver.Alike.of_expand hexpand).trans hr
      split at hq
      · cases hq
      · next p hresolve =>
        rw [hsr.resolve] at hresolve
        exact spoils_reference hl hresolve (hs.spoils hsr (hreg.resolve hresolve) hq)
  | lookup key type => exact spoils_lookup hl (hs.spoils hr (hp.part List.mem_cons_self) hq)
  | csv item =>
    rw [step, LazyList.toList_ofList] at hq
    refine spoils_ofFamily (fun v ha => ?_) hq
    obtain ⟨text, rfl, -⟩ := ha.fits hl
    rfl
  | rest | xml | inString => exact hp.here.elim

/-- At every budget, each negative spoils the pattern it is a corruption of. -/
theorem sound_ofBudget (hl : r.config.mockMode = false) (hreg : r.Everywhere NegatedNode)
    (n : Nat) : (ofBudget n).Sound r := by
  induction n with
  | zero => exact ⟨nofun, nofun⟩
  | succ n ih =>
    refine ⟨fun hr hp hq => spoils_step hl hreg ih hr hp hq, fun hr hp hq => ?_⟩
    simp only [ofBudget, step, LazyList.toList_map] at hq
    obtain ⟨negative, hnegative, rfl⟩ := List.mem_map.1 hq
    exact ⟨negative, rfl, ih.spoils (alike_inNegative hr) hp hnegative⟩

end Negatives

namespace Pattern

/-- The second pattern is among the negatives that an enumeration on some budget gives for a row. -/
def HasNegative (p : Pattern) (row : Row) (r : Resolver) (q : Pattern) : Prop :=
  ∃ n, q ∈ (Negatives.ofBudget n p row r).toList

variable {p q : Pattern} {row : Row} {r : Resolver} {v : Value}

/-- What the engine lists on its own budget is a negative of the pattern. -/
theorem hasNegative_of_negatives (h : q ∈ (p.negatives row r).toList) : p.HasNegative row r q :=
  ⟨_, h⟩

/-- A pattern does not accept what one of its negatives generates. -/
theorem not_accepts_of_negative (hl : r.config.mockMode = false) (hf : r.facts = [])
    (hreg : r.Everywhere NegatedNode) (hp : p.Everywhere NegatedNode)
    (hq : p.HasNegative row r q) (hv : q.Generates v r) : ¬ p.Accepts v r := by
  obtain ⟨n, hq⟩ := hq
  obtain ⟨m, hv⟩ := hv
  exact ((Negatives.sound_ofBudget hl hreg n).spoils (.refl r) hp hq).misses m r v (.refl r) hf hv

/-- One of two types that refer to each other: a team has a lead and members. -/
def team : Pattern :=
  .object .json
    [("lead", .reference "(Person)"), ("members", .list (.reference "(Person)") none 0)] none

/-- The other one: a person has a name, which may be null, and perhaps a team. -/
def person : Pattern :=
  .object .json [("name", .union [.null, .string] none none), ("team?", .reference "(Team)")] none

/-- Both types are registered. -/
def teamResolver : Resolver :=
  (Resolver.empty.register "Person" person).register "Team" team

/-- The negative of a team whose lead has a number for a name. -/
def teamNegative : Pattern :=
  .object .json
    [("lead", .object .json [("name", .number), ("team?", .reference "(Team)")] none),
      ("members", .list (.reference "(Person)") none 0)] none

/-- The registered pattern of the example is built from the allowed forms only. -/
theorem team_everywhere : team.Everywhere NegatedNode := by
  have hperson : (reference "(Person)").Everywhere NegatedNode := .leaf trivial rfl
  refine .intro (plainKeys_of_forall (by decide) (by decide)) fun q hq => ?_
  obtain rfl | rfl : q = .reference "(Person)" ∨ q = .list (.reference "(Person)") none 0 := by
    simpa [team, parts, declaredKeys, ellipsis] using hq
  · exact hperson
  · exact .single trivial rfl hperson

/-- The recursive pattern of the example is built from the allowed forms only. -/
theorem person_everywhere : person.Everywhere NegatedNode := by
  refine .intro (plainKeys_of_forall (by decide) (by decide)) fun q hq => ?_
  obtain rfl | rfl : q = .union [.null, .string] none none ∨ q = .reference "(Team)" := by
    simpa [person, parts, declaredKeys, ellipsis] using hq
  · refine .intro ⟨.string, rfl⟩ fun q hq => ?_
    obtain rfl | rfl : q = .null ∨ q = .string := by simpa [parts] using hq
    · exact .leaf trivial rfl
    · exact .leaf trivial rfl
  · exact .leaf trivial rfl

/-- A team whose lead has a number for a name is generated from the negative, and it is not
accepted. -/
theorem team_not_accepts :
    (reference "(Team)").HasNegative .empty teamResolver teamNegative ∧
      teamNegative.Generates (.object [("lead", .object [("name", .number .one)]),
        ("members", .array [])]) teamResolver ∧
      ¬ (reference "(Team)").Accepts (.object [("lead", .object [("name", .number .one)]),
        ("members", .array [])]) teamResolver := by
  have hnegative : (reference "(Team)").HasNegative .empty teamResolver teamNegative :=
    ⟨12, List.mem_of_getElem? (i := 0) rfl⟩
  have hgenerates : teamNegative.Generates (.object [("lead", .object [("name", .number .one)]),
      ("members", .array [])]) teamResolver := ⟨12, default, rfl⟩
  have hreg : teamResolver.Everywhere NegatedNode := by
    intro k q hq
    have hq : (k, q) ∈ [("(Person)", person), ("(Team)", team)] := hq
    rcases List.mem_cons.1 hq with hq | hq
    · cases hq
      exact person_everywhere
    · cases List.mem_singleton.1 hq
      exact team_everywhere
  exact ⟨hnegative, hgenerates,
    not_accepts_of_negative rfl rfl hreg (.leaf trivial rfl) hnegative hgenerates⟩

end Pattern

end DataContract
