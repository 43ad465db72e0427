import DataContract.Proofs.Generation.Errors
import DataContract.Proofs.Generation.Structures

/-!
# What has a value is generated

Generation ends in an error only if a pattern has no value. The one error that may come up is that a
name would have to be expanded inside its own expansion, and then the pattern at that place accepts
nothing (`Pattern.not_endsIn_of_accepts`), however the registered types refer to each other and
whatever the outcomes of the choices.

The names that are being expanded stand in the way of some values, but never of the smallest one: a
value of a name that a match on the least possible budget accepts has no value of that name inside.
So the induction over the budget of generation says of every error that the pattern has no value for
a match on a budget on which no name that is being expanded has one (`Generator.Honest`).
-/

namespace DataContract

/-! ## Patterns with a value -/

namespace Pattern

/-- A pattern for which generation is not in want of anything but a value: names stand for
something, unions have no examples and those of enumerations are read, and keys of dictionaries are
scalars. -/
def RoutedNode (r : Resolver) : Pattern → Prop
  | .dictionary key _ => ∃ s, key = .scalar s
  | .union _ _ text => text = none
  | .enumeration shape =>
    ∀ text, shape.inlineExample = some text → (enumeration shape).Reads text r
  | .reference name => ∃ p, r.resolve name = .ok p
  | .xml _ => False
  | .inString _ => False
  | .csv _ => False
  | _ => True

/-- A match on the budget accepts some value. -/
def HasValue (p : Pattern) (n : Nat) (r : Resolver) : Prop :=
  ∃ v, Succeeds ((Engine.ofBudget n).check p v r)

variable {p q : Pattern} {r : Resolver} {m n : Nat} {name : String}

/-- A larger budget accepts no fewer values. -/
theorem HasValue.mono (h : p.HasValue m r) (hmn : m ≤ n) : p.HasValue n r := by
  obtain ⟨v, hv⟩ := h
  exact ⟨v, ((Engine.ofBudget_below hmn).check (Value.equal_self v) (.refl r)).succeeds hv⟩

/-- Without budget no value is accepted. -/
theorem not_hasValue_zero : ¬ p.HasValue 0 r := by
  rintro ⟨v, hv⟩
  exact not_succeeds_none hv

/-- The parts of a value have values for matches on the budget before. -/
theorem HasValue.fits (hl : r.config.mockMode = false) (h : p.HasValue (n + 1) r) :
    ∃ v, p.Fits r (fun p _ => p.HasValue n r) (fun _ _ => True) v := by
  obtain ⟨v, hv⟩ := h
  rw [check_succ hl] at hv
  exact ⟨v, (Engine.fits_of_succeeds hv).imp (fun _ v h => ⟨v, h⟩) fun _ _ _ => trivial⟩

/-- A name has the values of what it stands for, one step of the budget later. -/
theorem hasValue_of_reference (hl : r.config.mockMode = false) (hq : r.resolve name = .ok q)
    (h : (reference name).HasValue (n + 1) r) : q.HasValue n r := by
  obtain ⟨v, hv⟩ := h.fits hl
  have hv : FitsReference r name v fun p _ => p.HasValue n r := hv
  rwa [FitsReference, hq] at hv

/-- A name has the same values in every form. -/
theorem hasValue_delimited (hl : r.config.mockMode = false) :
    (reference (Name.delimited name)).HasValue n r ↔ (reference name).HasValue n r := by
  cases n with
  | zero => exact iff_of_false not_hasValue_zero not_hasValue_zero
  | succ n =>
    have hresolve : r.resolve (Name.delimited name) = r.resolve name := by
      rw [Resolver.resolve, Name.delimited_delimited, Resolver.resolve]
    simp only [HasValue, check_succ hl, Engine.checkValue, Engine.checkReference, hresolve]

end Pattern

open Pattern (RoutedNode)

/-- No name that is being expanded has a value for a match on the budget. -/
def Resolver.Clear (r' r : Resolver) (n : Nat) : Prop :=
  ∀ name ∈ r'.expanding, ¬ (Pattern.reference name).HasValue n r

/-- What has no value on a budget has none on a smaller one. -/
theorem Resolver.Clear.mono {r' r : Resolver} {m n : Nat} (h : r'.Clear r n) (hmn : m ≤ n) :
    r'.Clear r m :=
  fun name hname hv => h name hname (hv.mono hmn)

/-- Every error of the generator is a recursion at a pattern that has no value on a budget on which
no name that is being expanded has one, and scalars are generated without errors. -/
structure Generator.Honest (gen : Generator) (r : Resolver) : Prop where
  scalar {s : Scalar} {r' : Resolver} {err : ContractError} :
    ¬ Generation.Errs gen r' (.scalar s) err
  recursion {p : Pattern} {r' : Resolver} {err : ContractError} (hr : r'.Alike r)
    (hp : p.Everywhere (RoutedNode r)) (h : Generation.Errs gen r' p err) :
    ∃ name, err = .recursion name
  not_hasValue {p : Pattern} {r' : Resolver} {err : ContractError} {n : Nat} (hr : r'.Alike r)
    (hp : p.Everywhere (RoutedNode r)) (h : Generation.Errs gen r' p err) (hc : r'.Clear r n) :
    ¬ p.HasValue n r

namespace Generation

open Pattern (declaredKeys splitRest place? HasValue FitsLength)

variable {gen : Generator} {r r' : Resolver} {c : Choices} {p q : Pattern} {err : ContractError}
  {m n : Nat}

/-- What an honest generator says of a pattern when it ends in the error. -/
structure Hopeless (r r' : Resolver) (p : Pattern) (err : ContractError) : Prop where
  recursion : ∃ name, err = .recursion name
  not_fits {n : Nat} {v : Value} (hc : r'.Clear r n) :
    ¬ p.Fits r (fun p _ => p.HasValue n r) (fun _ _ => True) v

/-- A pattern that is hopeless has no value, as a value would fit it with values of its parts. -/
theorem Hopeless.not_hasValue (hl : r.config.mockMode = false) (h : Hopeless r r' p err)
    (hc : r'.Clear r n) : ¬ p.HasValue n r := by
  intro hp
  cases n with
  | zero => exact Pattern.not_hasValue_zero hp
  | succ n =>
    obtain ⟨v, hv⟩ := hp.fits hl
    exact h.not_fits (hc.mono (Nat.le_succ n)) hv

/-- An error of a part that every value has leaves no hope for the whole. -/
theorem hopeless_of_part (hgen : gen.Honest r) (hr : r'.Alike r)
    (hq : q.Everywhere (RoutedNode r)) (he : Errs gen r' q err)
    (hpart : ∀ {n v}, p.Fits r (fun p _ => p.HasValue n r) (fun _ _ => True) v →
      q.HasValue n r) : Hopeless r r' p err :=
  ⟨hgen.recursion hr hq he, fun hc hv => hgen.not_hasValue hr hq he hc (hpart hv)⟩

/-- An object that ends in an error has a mandatory key that does, so there is no hope for it. -/
theorem hopeless_object {layout : Layout} {keys : List (String × Pattern)} {title : Option String}
    {e : Engine} (hgen : gen.Honest r) (hr : r'.Alike r)
    (hp : (Pattern.object layout keys title).Everywhere (RoutedNode r))
    (h : object e gen keys r' c = .error err) :
    Hopeless r r' (.object layout keys title) err := by
  rcases Outcome.bind_eq_error.1 h with h | ⟨values, -, h⟩
  · obtain ⟨⟨⟨key, p⟩, i⟩, ha, h⟩ := Outcome.exists_of_traverse_error h
    rcases Outcome.bind_eq_error.1 h with h | ⟨value, -, h⟩
    · have hk : (key, p) ∈ declaredKeys keys := List.fst_mem_of_mem_zipIdx ha
      obtain ⟨he, hoptional⟩ := errs_of_member h
      obtain ⟨name, rfl⟩ := hgen.recursion hr (hp.key hk) he
      have hmandatory : Key.isOptional key = false :=
        Bool.eq_false_iff.2 fun ho => hoptional ho name rfl
      refine hopeless_of_part hgen hr (hp.key hk) he ?_
      rintro n v ⟨members, rfl, -, hpresent, hvalues⟩
      obtain ⟨w, hw⟩ := Option.isSome_iff_exists.1
        (Engine.missingKeys_eq_nil_iff.1 hpresent key p hk hmandatory)
      exact hvalues (Key.base key, p, w) (Engine.mem_presentKeys.2 ⟨key, hk, rfl, hw⟩)
    · cases h
  · cases h

/-- Every element before a repetition has an item. -/
theorem length_le_of_fitsLength {elements : List Pattern} {length : Nat}
    (h : FitsLength elements length) : (splitRest elements).1.length ≤ length := by
  unfold FitsLength at h
  split at h
  · exact h.ge
  · omega

/-- An array that ends in an error has an element that does, so there is no hope for it. -/
theorem hopeless_array {elements : List Pattern} (hgen : gen.Honest r) (hr : r'.Alike r)
    (hp : (Pattern.array elements).Everywhere (RoutedNode r))
    (h : array gen elements r' c = .error err) : Hopeless r r' (.array elements) err := by
  rcases Outcome.bind_eq_error.1 h with h | ⟨head, -, h⟩
  · obtain ⟨p, hm, he⟩ := errs_of_each h
    obtain ⟨i, hi⟩ := List.getElem?_of_mem hm
    refine hopeless_of_part hgen hr (hp.fixed hm) he ?_
    rintro n v ⟨items, rfl, hlength, hitems⟩
    have hlt := (List.getElem?_eq_some_iff.1 hi).1.trans_le (length_le_of_fitsLength hlength)
    exact hitems i p items[i] (by rw [place?, hi]; rfl) (List.getElem?_eq_getElem hlt)
  · dsimp only at h
    split at h
    · cases h
    · next p min hrest =>
      rcases Outcome.bind_eq_error.1 h with h | ⟨tail, -, h⟩
      · obtain ⟨he, hnone⟩ := errs_of_items h
        obtain ⟨name, rfl⟩ := hgen.recursion hr (hp.last hrest) he
        have hmin : min ≠ 0 := fun hmin => hnone hmin name rfl
        refine hopeless_of_part hgen hr (hp.last hrest) he ?_
        rintro n v ⟨items, rfl, hlength, hitems⟩
        rw [FitsLength, hrest] at hlength
        have hlt : (splitRest elements).1.length < items.length := by omega
        exact hitems _ p _ (by simp [place?, hrest]) (List.getElem?_eq_getElem hlt)
      · cases h

/-- The items of a list and of a repetition have the same shape. -/
theorem hopeless_repeated {min : Nat} (hgen : gen.Honest r) (hr : r'.Alike r)
    (hq : q.Everywhere (RoutedNode r)) (h : (repeated gen q min r' c).map Value.array = .error err)
    (hitems : ∀ {n v}, p.Fits r (fun p _ => p.HasValue n r) (fun _ _ => True) v →
      ∃ items : List Value, min ≤ items.length ∧ ∀ item ∈ items, q.HasValue n r) :
    Hopeless r r' p err := by
  obtain ⟨he, hnone⟩ := errs_of_items (Outcome.map_eq_error.1 h)
  obtain ⟨name, rfl⟩ := hgen.recursion hr hq he
  have hmin : min ≠ 0 := fun hmin => hnone hmin name rfl
  refine hopeless_of_part hgen hr hq he fun hv => ?_
  obtain ⟨items, hlength, hall⟩ := hitems hv
  obtain ⟨item, hitem⟩ := List.exists_mem_of_length_pos (l := items) (by omega)
  exact hall item hitem

/-- A dictionary ends in no error, as its keys are scalars and entries stop at a recursion. -/
theorem dictionary_ne_error {s : Scalar} {value : Pattern} (hgen : gen.Honest r) (hr : r'.Alike r)
    (hv : value.Everywhere (RoutedNode r)) :
    dictionary gen (.scalar s) value r' c ≠ .error err := by
  intro h
  rcases errs_of_entries (Outcome.map_eq_error.1 h) with he | ⟨he, hne⟩
  · exact hgen.scalar he
  · obtain ⟨name, rfl⟩ := hgen.recursion hr hv he
    exact hne name rfl

/-- A union that ends in an error has no member that does not, so there is no hope for it. -/
theorem hopeless_union {members : List Pattern} {title : Option String} (hgen : gen.Honest r)
    (hr : r'.Alike r) (hp : ∀ p ∈ members, p.Everywhere (RoutedNode r))
    (h : union gen members r' c = .error err) : Hopeless r r' (.union members title none) err := by
  obtain ⟨hnull, hne, hall, q, hq, he⟩ := errs_of_union h
  refine ⟨hgen.recursion hr (hp q (List.mem_of_mem_filter hq)) he, fun hc hv => ?_⟩
  rcases hv with ⟨p, hm, hvalue⟩ | hnil
  · have hnotNull : p.isNull = false := by
      rw [Bool.eq_false_iff]
      exact fun hp => Bool.eq_false_iff.1 hnull (List.any_eq_true.2 ⟨p, hm, hp⟩)
    obtain ⟨e, he⟩ := hall p (List.mem_filter.2 ⟨hm, by rw [hnotNull]; rfl⟩)
    exact hgen.not_hasValue hr (hp p hm) he hc hvalue
  · exact hne hnil

/-- What stands in the way of a name is a name that is being expanded. -/
theorem not_hasValue_of_isExpanding {name : String} (hl : r.config.mockMode = false)
    (h : r'.isExpanding name = true) (hc : r'.Clear r n) :
    ¬ (Pattern.reference name).HasValue n r := by
  rw [← Pattern.hasValue_delimited hl]
  exact hc _ (List.contains_iff_mem.1 h)

/-- If the pattern of a name has no value while the name is being expanded, the name has none: a
value for a match on the least possible budget would have none of that name inside. -/
theorem not_hasValue_reference {name : String} {s : Resolver} (hl : r.config.mockMode = false)
    (hs : s.expanding = Name.delimited name :: r'.expanding) (hq : r.resolve name = .ok q)
    (h : ∀ n, s.Clear r n → ¬ q.HasValue n r) :
    ∀ n, r'.Clear r n → ¬ (Pattern.reference name).HasValue n r := by
  intro n hc
  induction n with
  | zero => exact Pattern.not_hasValue_zero
  | succ n ih =>
    intro hv
    have hc := hc.mono (Nat.le_succ n)
    refine h n ?_ (Pattern.hasValue_of_reference hl hq hv)
    unfold Resolver.Clear
    rw [hs]
    refine List.forall_mem_cons.2 ⟨?_, hc⟩
    rw [Pattern.hasValue_delimited hl]
    exact ih hc

/-- One step of an honest generator: its errors are recursions at patterns without a value. -/
theorem honest_step (hl : r.config.mockMode = false) (hreg : r.Everywhere (RoutedNode r))
    (hgen : gen.Honest r) (hr : r'.Alike r) (hp : p.Everywhere (RoutedNode r))
    (h : step (Engine.ofBudget m) gen p r' c = .error err) :
    (∃ name, err = .recursion name) ∧ ∀ n, r'.Clear r n → ¬ p.HasValue n r := by
  have hopeless (hh : Hopeless r r' p err) :
      (∃ name, err = .recursion name) ∧ ∀ n, r'.Clear r n → ¬ p.HasValue n r :=
    ⟨hh.recursion, fun _ => hh.not_hasValue hl⟩
  have hnode := hp.here
  cases p with
  | scalar | anything | exact => cases h
  | object => exact hopeless (hopeless_object hgen hr hp h)
  | array => exact hopeless (hopeless_array hgen hr hp h)
  | list | rest =>
    refine hopeless (hopeless_repeated hgen hr (hp.part List.mem_cons_self) h ?_)
    rintro n v ⟨items, -, hitems⟩
    exact ⟨items, hitems⟩
  | dictionary key value =>
    obtain ⟨s, rfl⟩ := hnode
    exact absurd h (dictionary_ne_error hgen hr
      (hp.part (List.mem_cons_of_mem _ List.mem_cons_self)))
  | union members title text =>
    obtain rfl : text = none := hnode
    exact hopeless (hopeless_union hgen hr (fun p hm => hp.part hm) h)
  | enumeration shape =>
    unfold step at h
    dsimp only at h
    split at h
    · next text htext => exact absurd ⟨m, err, h⟩ ((hnode text htext).not_refuses hr.symm)
    · cases h
  | reference name =>
    obtain ⟨q, hq⟩ := hnode
    rcases Outcome.bind_eq_error.1 h with h | ⟨s, hs, h⟩
    · unfold Resolver.expand at h
      split at h
      · next hexpanding =>
        cases h
        exact ⟨⟨_, rfl⟩, fun n => not_hasValue_of_isExpanding hl hexpanding⟩
      · cases h
    · have hs := Outcome.ofExcept_eq_ok.1 hs
      have hsr : s.Alike r := (Resolver.Alike.of_expand hs).trans hr
      rw [hsr.resolve name, hq] at h
      have hq' := hreg.resolve hq
      have hexpanding : s.expanding = Name.delimited name :: r'.expanding := by
        unfold Resolver.expand at hs
        split at hs
        · cases hs
        · cases hs
          rfl
      exact ⟨hgen.recursion hsr hq' ⟨c, h⟩, not_hasValue_reference hl hexpanding hq
        fun n => hgen.not_hasValue hsr hq' ⟨c, h⟩⟩
  | lookup key type =>
    rcases Outcome.bind_eq_error.1 h with h | ⟨fact, -, h⟩
    · exact absurd h acceptedFact?_ne_error
    · cases fact with
      | some v => cases h
      | none => exact hopeless (hopeless_of_part hgen hr (hp.part List.mem_cons_self) ⟨c, h⟩ id)
  | xml | inString | csv => exact hnode.elim

/-- At every budget generation is honest, by induction on it. -/
theorem honest_ofBudget (hl : r.config.mockMode = false) (hreg : r.Everywhere (RoutedNode r))
    (n : Nat) : (ofBudget n).Honest r := by
  induction n with
  | zero => exact ⟨fun ⟨_, h⟩ => (nomatch h), fun _ _ ⟨_, h⟩ => (nomatch h),
      fun _ _ ⟨_, h⟩ => (nomatch h)⟩
  | succ n ih =>
    refine ⟨fun ⟨_, h⟩ => (nomatch h), fun hr hp ⟨c, h⟩ => ?_, fun hr hp ⟨c, h⟩ => ?_⟩
    · exact (honest_step hl hreg ih hr hp h).1
    · exact (honest_step hl hreg ih hr hp h).2 _

end Generation

namespace Pattern

/-- For some outcome of the choices, generation on some budget ends in the error. -/
def EndsIn (p : Pattern) (err : ContractError) (r : Resolver) : Prop :=
  ∃ n, Generation.Errs (Generation.ofBudget n) r p err

/-- An error on the computed budget is one on some budget. -/
theorem endsIn_of_generate {p : Pattern} {r : Resolver} {c : Choices} {err : ContractError}
    (h : p.generate r c = .error err) : p.EndsIn err r :=
  ⟨_, c, h⟩

/-- Where no name is being expanded, generation for a pattern that accepts some value ends in no
error. -/
theorem not_endsIn_of_accepts {p : Pattern} {v : Value} {r : Resolver} {err : ContractError}
    (hl : r.config.mockMode = false) (he : r.expanding = []) (hreg : r.Everywhere (RoutedNode r))
    (hp : p.Everywhere (RoutedNode r)) (ha : p.Accepts v r) : ¬ p.EndsIn err r := by
  rintro ⟨n, h⟩
  obtain ⟨m, hm⟩ := ha
  have hclear : r.Clear r m := by
    unfold Resolver.Clear
    rw [he]
    exact nofun
  exact (Generation.honest_ofBudget hl hreg n).not_hasValue (.refl r) hp h hclear ⟨v, hm⟩

/-! ## Types that contain each other -/

/-- Three types that contain each other: only the last one has a member that contains none of them,
and from the first one that is three names away. -/
def knotResolver : Resolver :=
  { Resolver.empty with
    registry :=
      [("(Bend)", .union [.reference "(Knot)", .array [.reference "(Cord)", .rest .anything 1]]
          none none),
        ("(Cord)", .union [.reference "(Bend)", .reference "(Knot)", .number] none none),
        ("(Knot)", .object .json [("bend", .reference "(Bend)"), ("knot?", .reference "(Knot)")]
          none)] }

/-- A knot of a bend of a cord. -/
def knot : Value :=
  .object [("bend", .array [.number .one, .null])]

/-- The names in the knot stand for something. -/
theorem knotResolver_everywhere : knotResolver.Everywhere (RoutedNode knotResolver) := by
  have hbend : (reference "(Bend)").Everywhere (RoutedNode knotResolver) := .leaf ⟨_, rfl⟩ rfl
  have hcord : (reference "(Cord)").Everywhere (RoutedNode knotResolver) := .leaf ⟨_, rfl⟩ rfl
  have hknot : (reference "(Knot)").Everywhere (RoutedNode knotResolver) := .leaf ⟨_, rfl⟩ rfl
  have hnumber : number.Everywhere (RoutedNode knotResolver) := .leaf trivial rfl
  have hanything : anything.Everywhere (RoutedNode knotResolver) := .leaf trivial rfl
  intro name p hp
  rcases List.mem_cons.1 hp with hp | hp
  · cases hp
    refine .intro rfl (List.forall_mem_cons.2 ⟨hknot, List.forall_mem_singleton.2 ?_⟩)
    exact .intro trivial (List.forall_mem_cons.2 ⟨hcord, List.forall_mem_singleton.2 hanything⟩)
  rcases List.mem_cons.1 hp with hp | hp
  · cases hp
    exact .intro rfl (List.forall_mem_cons.2
      ⟨hbend, List.forall_mem_cons.2 ⟨hknot, List.forall_mem_singleton.2 hnumber⟩⟩)
  · obtain rfl := (Prod.ext_iff.1 (List.mem_singleton.1 hp)).2
    exact .intro trivial (List.forall_mem_cons.2 ⟨hbend, List.forall_mem_singleton.2 hknot⟩)

/-- A knot is accepted, so the generation of a knot ends in no error, wherever the choices lead. -/
theorem knot_not_endsIn :
    (reference "(Knot)").Accepts knot knotResolver ∧
      ∀ err, ¬ (reference "(Knot)").EndsIn err knotResolver := by
  have ha : (reference "(Knot)").Accepts knot knotResolver := ⟨12, rfl⟩
  have hp : (reference "(Knot)").Everywhere (RoutedNode knotResolver) := .leaf ⟨_, rfl⟩ rfl
  exact ⟨ha, fun err => not_endsIn_of_accepts rfl rfl knotResolver_everywhere hp ha⟩

/-- A type without values. -/
def loopResolver : Resolver :=
  Resolver.empty.register "Loop" (.object .json [("x", .reference "(Loop)")] none)

/-- An enumeration whose example is none of its literals, or a value that there is not. -/
def strayExample : Pattern :=
  .union [.enumeration ⟨[.string "a"], false, none, some "zzz"⟩, .reference "(Loop)"] none none

/-- Examples of enumerations have to be read: the literal is accepted, but generation goes by the
example, and the way around it ends in a recursion. -/
theorem strayExample_endsIn_recursion :
    loopResolver.facts = [] ∧ loopResolver.expanding = [] ∧
      loopResolver.config.mockMode = false ∧ loopResolver.AliasFree ∧
      (∀ name ∈ strayExample.references, ∃ p, loopResolver.resolve name = .ok p) ∧
      (∀ name ∈ referencesOfFields loopResolver.registry,
        ∃ p, loopResolver.resolve name = .ok p) ∧
      strayExample.Accepts (.string "a") loopResolver ∧
      strayExample.generate loopResolver default = .error (.recursion "(Loop)") := by
  have hresolves : ∀ name ∈ ["(Loop)"], ∃ p, loopResolver.resolve name = .ok p :=
    List.forall_mem_singleton.2 ⟨_, rfl⟩
  have haliasFree : loopResolver.AliasFree := by
    refine Resolver.aliasFree_of_forall fun k p hp => ?_
    obtain rfl := (Prod.ext_iff.1 (List.mem_singleton.1 hp)).2
    exact nofun
  exact ⟨rfl, rfl, rfl, haliasFree, hresolves, hresolves, ⟨12, rfl⟩, rfl⟩

end Pattern

end DataContract
