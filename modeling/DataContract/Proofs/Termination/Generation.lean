import DataContract.Generation
import DataContract.Proofs.Selections
import DataContract.Proofs.Termination.Budget
import DataContract.Variants

/-!
# Generation comes to an end on every registry

A name whose expansion has begun is not expanded again, so there are only so many names left to
expand (`Resolver.room`), however the registered patterns refer to each other. Each step of
generation goes into the pattern or begins to expand a name that was left, and so decreases
`Resolver.depth`. An unknown name and a circle of aliases are errors. The same steps are taken in
the enumeration of positive variants where the row is empty.
-/

namespace DataContract

/-! ## Depth -/

namespace Pattern

/-- No XML element, and no union with an example of its own. -/
def Generable : Pattern → Prop
  | .union _ _ text => text = none
  | .xml _ => False
  | _ => True

end Pattern

namespace Resolver

variable {r s : Resolver} {p q : Pattern} {name : String}

/-- The number of registered names whose expansion has not begun. -/
def room (r : Resolver) : Nat :=
  (r.registry.filter fun m => !r.expanding.contains m.1).length

/-- A bound on the number of steps into the pattern and the patterns of names that are left. -/
def depth (r : Resolver) (p : Pattern) : Nat :=
  r.room * (Pattern.weightOfFields r.registry + 1) + p.weight

/-- A name that stands for something is registered. -/
theorem exists_mem_of_resolve_name (h : r.resolve name = .ok q) :
    ∃ p, (Name.delimited name, p) ∈ r.registry := by
  rw [resolve, follow, getPattern_delimited] at h
  cases hget : Fields.get? r.registry (Name.delimited name) with
  | some p => exact ⟨p, Fields.mem_of_get? hget⟩
  | none => simp [getPattern, hget] at h

/-- Where the expansion of a registered name begins there is one name less left. -/
theorem room_lt_of_expand (h : r.expand name = .ok s)
    (hname : (Name.delimited name, p) ∈ r.registry) : s.room < r.room := by
  obtain ⟨hnot, rfl⟩ := expand_eq_ok.1 h
  have hleft : (r.registry.filter fun m => !(Name.delimited name :: r.expanding).contains m.1) =
      (r.registry.filter fun m => !r.expanding.contains m.1).filter
        (·.1 != Name.delimited name) := by
    rw [List.filter_filter]
    refine List.filter_congr fun m _ => ?_
    rw [List.contains_cons, Bool.not_or, bne, Bool.and_comm]
  show (List.filter _ r.registry).length < _
  rw [hleft]
  refine List.length_filter_lt_length_iff_exists.2 ⟨_, List.mem_filter.2 ⟨hname, ?_⟩, by simp⟩
  simpa [isExpanding] using hnot

/-- Going inside a pattern lowers the depth. -/
theorem depth_lt_of_inner (hq : q ∈ p.inner) : r.depth q < r.depth p :=
  Nat.add_lt_add_left (Pattern.weight_lt_of_inner hq) _

/-- Expanding a name lowers the depth, although its pattern may be the larger one: one name fewer is
left. -/
theorem depth_lt_of_expand (h : r.expand name = .ok s) (hq : s.resolve name = .ok q) :
    s.depth q < r.depth (.reference name) := by
  have hregistry := registry_of_expand h
  obtain ⟨p, hname⟩ := exists_mem_of_resolve_name hq
  obtain ⟨key, hkey⟩ := exists_mem_of_resolve hq
  rw [hregistry] at hname hkey
  have hroom : s.room + 1 ≤ r.room := room_lt_of_expand h hname
  have hweight : q.weight ≤ Pattern.weightOfFields r.registry :=
    Pattern.weight_le_weightOfFields (List.mem_map_of_mem hkey)
  unfold depth
  rw [hregistry]
  calc
    s.room * (Pattern.weightOfFields r.registry + 1) + q.weight <
        (s.room + 1) * (Pattern.weightOfFields r.registry + 1) := by
      rw [Nat.succ_mul]
      omega
    _ ≤ r.room * (Pattern.weightOfFields r.registry + 1) := Nat.mul_le_mul_right _ hroom
    _ ≤ _ := Nat.le_add_right _ _

end Resolver

/-- Two steps are enough to read a text with an enumeration. -/
theorem Engine.parse_enumeration_ne_unfinished (shape : Enumeration) (text : String) (r : Resolver)
    (n : Nat) : (Engine.ofBudget (n + 2)).parse (.enumeration shape) text r ≠ .unfinished := by
  show (Engine.ofBudget (n + 1)).parseUnion shape.members (Pattern.enumeration shape).typeName
    text r ≠ .unfinished
  refine Engine.parseUnion_ne_unfinished fun p hp => ?_
  rcases List.mem_append.1 hp with hp | hp
  · obtain ⟨v, -, rfl⟩ := List.mem_map.1 hp
    exact parseExact_ne_unfinished v text
  · split at hp
    · obtain rfl := List.mem_singleton.1 hp
      exact parse_scalar_ne_unfinished n .null text
    · cases hp

namespace Pattern

/-- Without facts and examples in unions, the pattern and the patterns of names that are left are
less deep than the number. -/
structure Expandable (r : Resolver) (n : Nat) (p : Pattern) : Prop where
  pattern : p.Throughout Generable
  registered : ∀ name q, (name, q) ∈ r.registry → q.Throughout Generable
  facts : r.facts = []
  depth_lt : r.depth p < n

namespace Expandable

variable {r s : Resolver} {p q : Pattern} {name : String} {n : Nat}

/-- What is inside an expandable pattern is expandable with one step less. -/
theorem inside (h : p.Expandable r (n + 1)) (hq : q ∈ p.inner) : q.Expandable r n :=
  ⟨h.pattern.inside hq, h.registered, h.facts,
    (Resolver.depth_lt_of_inner hq).trans_le (Nat.le_of_lt_succ h.depth_lt)⟩

/-- What an expandable name stands for is expandable with one step less, the name being expanded. -/
theorem expand (h : (reference name).Expandable r (n + 1)) (hs : r.expand name = .ok s)
    (hq : s.resolve name = .ok q) : q.Expandable s n := by
  have hregistry := Resolver.registry_of_expand hs
  obtain ⟨key, hkey⟩ := Resolver.exists_mem_of_resolve hq
  refine ⟨?_, ?_, ?_, (Resolver.depth_lt_of_expand hs hq).trans_le (Nat.le_of_lt_succ h.depth_lt)⟩
  · exact h.registered key q (hregistry ▸ hkey)
  · exact hregistry ▸ h.registered
  · obtain ⟨-, rfl⟩ := Resolver.expand_eq_ok.1 hs
    exact h.facts

/-- More steps keep a pattern expandable. -/
theorem mono {m : Nat} (h : p.Expandable r n) (hm : n ≤ m) : p.Expandable r m :=
  ⟨h.pattern, h.registered, h.facts, h.depth_lt.trans_le hm⟩

/-- What the closing rest of an expandable array repeats is expandable with one step less. -/
theorem last {elements : List Pattern} {min : Nat} (h : (array elements).Expandable r (n + 1))
    (hq : (splitRest elements).2 = some (q, min)) : q.Expandable r n := by
  have hrest := h.inside (rest_mem_of_splitRest hq)
  cases n with
  | zero => exact absurd hrest.depth_lt (Nat.not_lt_zero _)
  | succ n => exact (hrest.inside List.mem_cons_self).mono (Nat.le_succ n)

/-- The example of an enumeration that is left is read on what is left of the budget. -/
theorem parse_enumeration {shape : Enumeration} (h : (enumeration shape).Expandable r (n + 1))
    (text : String) :
    ((Engine.ofBudget n).parse (.enumeration shape) text r).Finishes fun _ => True := by
  have hweight : (enumeration shape).weight ≤ n :=
    (Nat.le_add_left _ _).trans (Nat.le_of_lt_succ h.depth_lt)
  obtain ⟨m, rfl⟩ : ∃ m, n = m + 2 := by
    refine ⟨n - 2, ?_⟩
    have htwo : 2 ≤ (enumeration shape).weight :=
      (Nat.le_add_right 2 _).trans (Nat.le_add_right _ _)
    omega
  exact Outcome.finishes_of_ne_unfinished (Engine.parse_enumeration_ne_unfinished shape text r m)

end Expandable

end Pattern

/-! ## Generation -/

namespace Generation

open Pattern (Expandable Generable declaredKeys splitRest)

/-- The outcome is a value or an error. -/
def Ended {α : Type} (x : Outcome α) : Prop :=
  x.Finishes fun _ => True

variable {e : Engine} {gen : Generator} {r : Resolver} {p : Pattern} {c : Choices} {n : Nat}

/-- Without facts none is ever accepted in place of a drawn value. -/
theorem acceptedFact?_of_facts (hf : r.facts = []) (name : String) (p : Pattern) :
    acceptedFact? e name p r = .ok none := by
  unfold acceptedFact? Resolver.fact?
  rw [hf]
  rfl

/-- Drawing the value of a key ends where drawing from its pattern does. -/
theorem ended_member (hf : r.facts = []) (key : String) (h : ∀ c, Ended (gen p r c)) :
    Ended (member e gen key p r c) := by
  rw [member, acceptedFact?_of_facts hf, Outcome.ok_bind]
  dsimp only
  split
  · exact (h _).bind fun _ _ => trivial
  · split
    · trivial
    · have hvalue := h (c.part 1)
      split
      · trivial
      · trivial
      · trivial
      · next hu => exact absurd hu hvalue.ne_unfinished

/-- Drawing the items of a list ends where drawing one of them does. -/
theorem ended_items {element : Pattern} {min left done : Nat} (h : ∀ c, Ended (gen element r c)) :
    Ended (items gen element min r c left done) := by
  induction left generalizing done with
  | zero => trivial
  | succ left ih =>
    have hvalue := h (c.part (done + 1))
    rw [items]
    split
    · exact ih.map fun _ _ => trivial
    · split <;> trivial
    · trivial
    · next hu => exact absurd hu hvalue.ne_unfinished

/-- Drawing from several patterns in turn ends where each draw does. -/
theorem ended_each {patterns : List Pattern} (h : ∀ p ∈ patterns, ∀ c, Ended (gen p r c)) :
    Ended (each gen patterns r c) := by
  refine (Outcome.finishes_traverse (Q := fun _ => True) fun a ha => ?_).imp fun _ _ => trivial
  exact h a.1 (List.fst_mem_of_mem_zipIdx ha) _

/-- Drawing the entries of a dictionary ends where drawing keys and values does. -/
theorem ended_entries {key value : Pattern} {left done : Nat} (hkey : ∀ c, Ended (gen key r c))
    (hvalue : ∀ c, Ended (gen value r c)) : Ended (entries gen key value r c left done) := by
  induction left generalizing done with
  | zero => trivial
  | succ left ih =>
    have hname := hkey ((c.part (done + 1)).part 0)
    have hv := hvalue ((c.part (done + 1)).part 1)
    rw [entries]
    split
    · trivial
    · next hu => exact absurd hu hname.ne_unfinished
    · split
      · exact ih.map fun _ _ => trivial
      · trivial
      · trivial
      · next hu => exact absurd hu hv.ne_unfinished

/-- Trying candidates in turn ends where each of them does. -/
theorem ended_first {candidates : List (Pattern × Nat)} {last : ContractError}
    (h : ∀ a ∈ candidates, ∀ c, Ended (gen a.1 r c)) : Ended (first gen r c candidates last) := by
  induction candidates generalizing last with
  | nil => trivial
  | cons a candidates ih =>
    obtain ⟨hhead, htail⟩ := List.forall_mem_cons.1 h
    rw [first]
    split
    · trivial
    · exact ih htail
    · next hu => exact absurd hu (hhead _).ne_unfinished

/-- Drawing from a union ends where drawing from each member does. -/
theorem ended_union {members : List Pattern} (h : ∀ p ∈ members, ∀ c, Ended (gen p r c)) :
    Ended (union gen members r c) := by
  unfold union
  dsimp only
  split
  · trivial
  · have hfirst {start : Nat} :
        Ended (first gen r c
          ((Pattern.nonNull members).zipIdx.drop start ++
            (Pattern.nonNull members).zipIdx.take start) .emptyEnum) := by
      refine ended_first fun a ha => h a.1 ?_
      have hmem : a ∈ (Pattern.nonNull members).zipIdx :=
        (List.mem_append.1 ha).elim List.mem_of_mem_drop List.mem_of_mem_take
      exact List.mem_of_mem_filter (List.fst_mem_of_mem_zipIdx hmem)
    split
    · split <;> trivial
    · exact hfirst

/-- Drawing an array ends where drawing from its elements and its rest does. -/
theorem ended_array {elements : List Pattern}
    (hfixed : ∀ p ∈ (splitRest elements).1, ∀ c, Ended (gen p r c))
    (hrest : ∀ p min, (splitRest elements).2 = some (p, min) → ∀ c, Ended (gen p r c)) :
    Ended (array gen elements r c) := by
  refine (ended_each hfixed).bind fun head _ => ?_
  cases hlast : (splitRest elements).2 with
  | none => trivial
  | some last => exact (ended_items (hrest _ _ hlast)).bind fun _ _ => trivial

/-- A step of generation ends if what it goes on to does. -/
theorem ended_step (hp : p.Expandable r (n + 1))
    (hgen : ∀ q s, q.Expandable s n → ∀ c, Ended (gen q s c)) :
    Ended (step (Engine.ofBudget n) gen p r c) := by
  have hinner (q : Pattern) (hq : q ∈ p.inner) : ∀ c, Ended (gen q r c) := hgen q r (hp.inside hq)
  cases p with
  | scalar | anything | exact => trivial
  | object layout keys title =>
    refine (Outcome.finishes_traverse (Q := fun _ => True) ?_).bind fun _ _ => trivial
    rintro ⟨⟨key, p⟩, i⟩ hm
    have hmem := (Pattern.mem_declaredKeys.1 (List.fst_mem_of_mem_zipIdx hm)).1
    exact (ended_member hp.facts key (hinner p (List.mem_map_of_mem hmem))).bind fun _ _ => trivial
  | array elements =>
    exact ended_array (fun q hq => hinner q (Pattern.mem_of_mem_splitRest hq))
      fun q min hq => hgen q r (hp.last hq)
  | list element | rest element =>
    exact (ended_items (hinner element List.mem_cons_self)).map fun _ _ => trivial
  | dictionary key value =>
    exact (ended_entries (hinner key List.mem_cons_self)
      (hinner value (List.mem_cons_of_mem _ List.mem_cons_self))).map fun _ _ => trivial
  | xml => exact hp.pattern.here.elim
  | union members title text =>
    obtain rfl : text = none := hp.pattern.here
    exact ended_union hinner
  | enumeration shape =>
    rw [step]
    split
    · exact hp.parse_enumeration _
    · trivial
  | reference name =>
    rw [step]
    cases hs : r.expand name with
    | error err => trivial
    | ok s =>
      show Ended (Outcome.ofExcept (s.resolve name) >>= fun q => gen q s c)
      cases hq : s.resolve name with
      | error err => trivial
      | ok q => exact hgen q s (hp.expand hs hq) c
  | lookup key type =>
    rw [step, acceptedFact?_of_facts hp.facts]
    exact hinner type List.mem_cons_self c
  | inString type => exact (hinner type List.mem_cons_self c).bind fun _ _ => trivial
  | csv item =>
    refine (ended_each fun q hq => ?_).bind fun _ _ => trivial
    exact List.eq_of_mem_replicate hq ▸ hinner item List.mem_cons_self

/-- A budget above the depth ends every draw, by induction on the budget. -/
theorem ended_ofBudget (hp : p.Expandable r n) (c : Choices) : Ended (ofBudget n p r c) := by
  induction n generalizing p r c with
  | zero => exact absurd hp.depth_lt (Nat.not_lt_zero _)
  | succ n ih => exact ended_step hp fun q s hq c => ih hq c

end Generation

/-! ## Variants -/

namespace Variants

open Pattern (Expandable Generable declaredKeys)

/-- The outcome is an error or a complete list of variants. -/
def Ended (x : Outcome (LazyList Pattern)) : Prop :=
  x.Finishes (·.isComplete = true)

variable {e : Engine} {source : VariantSource} {r : Resolver} {p : Pattern} {n : Nat}

/-- Mapping the variants keeps an ended enumeration ended. -/
theorem ended_map {x : Outcome (LazyList Pattern)} {f : Pattern → Pattern} (h : Ended x) :
    Ended (x.map fun l => l.map f) :=
  Outcome.Finishes.map h fun l hl => (LazyList.isComplete_map f l).trans hl

/-- A complete list is cut at the cap without an unfinished tail. -/
theorem finishes_capped {l : LazyList Pattern} (h : l.isComplete = true) :
    (capped l r).Finishes fun _ => True := by
  have hl := LazyList.toList?_eq_some_iff.2
    ⟨LazyList.isComplete_take (n := r.config.maxCombinations) h, rfl⟩
  unfold capped
  rw [hl]
  trivial

/-- The empty row has no example. -/
theorem rowExample_empty (name : String) (p : Pattern) :
    e.rowExample name p .empty r = .ok none :=
  rfl

/-- Below the empty row there is the empty row. -/
theorem stepDown_empty (name : String) : Row.empty.stepDown name = .empty :=
  rfl

/-- The candidates of a key are found where its variants are. -/
theorem finishes_keyCandidates (key : String) (h : Ended (source p .empty r)) :
    (keyCandidates e source key p .empty r).Finishes fun _ => True := by
  rw [keyCandidates, rowExample_empty, Outcome.ok_bind, stepDown_empty]
  exact h.bind fun _ hl => (finishes_capped hl).bind fun _ _ => trivial

/-- The candidates of an element are found where its variants and those inside it are. -/
theorem finishes_elementCandidates (hp : Ended (source p .empty r))
    (hinner : ∀ q ∈ p.inner, Ended (source q .empty r)) :
    (elementCandidates source p .empty r).Finishes fun _ => True := by
  cases p with
  | rest element min =>
    exact (hinner element List.mem_cons_self).bind fun _ hl =>
      (finishes_capped hl).bind fun _ _ => trivial
  | _ => exact hp.bind fun _ hl => (finishes_capped hl).bind fun _ _ => trivial

/-- The combinations of finitely many candidates form a complete list. -/
theorem isComplete_combinations {α : Type} [BEq α] {keyed : List (String × List α)} {max : Nat}
    {spec : CombinationSpec α} (h : CombinationSpec.ofCandidates keyed max = .ok spec) :
    spec.combinations.isComplete = true := by
  obtain ⟨-, rfl⟩ := CombinationSpec.ofCandidates_eq_ok_iff.1 h
  refine (LazyList.toList?_eq_some_iff.1
    (CombinationSpec.toList?_combinations_eq_emitted (by simp) ?_)).1
  exact List.forall_mem_map.2 fun k hk => CombinationSpec.ne_nil_of_mem_live hk

/-- Enumerating an object ends where enumerating each of its values does. -/
theorem ended_object {layout : Layout} {keys : List (String × Pattern)} {title : Option String}
    (h : ∀ m ∈ keys, Ended (source m.2 .empty r)) :
    Ended (object e source layout keys title .empty r) := by
  refine (Outcome.finishes_traverse (Q := fun _ => True) fun m hm => ?_).bind fun keyed _ => ?_
  · have hkey := finishes_keyCandidates (e := e) m.1 (h m (Pattern.mem_declaredKeys.1 hm).1)
    exact hkey.bind fun _ _ => trivial
  · cases hspec : CombinationSpec.ofCandidates keyed r.config.maxCombinations with
    | error err => trivial
    | ok spec => exact (LazyList.isComplete_map _ _).trans (isComplete_combinations hspec)

/-- Enumerating an array ends where enumerating its elements and what they repeat does. -/
theorem ended_array {elements : List Pattern}
    (h : ∀ p ∈ elements, Ended (source p .empty r) ∧ ∀ q ∈ p.inner, Ended (source q .empty r)) :
    Ended (array source elements .empty r) := by
  refine (Outcome.finishes_traverse (Q := fun _ => True) fun p hp => ?_).bind fun slots _ => ?_
  · exact finishes_elementCandidates (h p hp).1 (h p hp).2
  · exact (LazyList.isComplete_map _ _).trans (LazyList.isComplete_ofList _)

/-- Enumerating the members of a union ends where enumerating each of them does. -/
theorem ended_members {patterns : List Pattern} (h : ∀ p ∈ patterns, Ended (source p .empty r)) :
    Ended (members source patterns .empty r) :=
  (Outcome.finishes_traverse h).bind fun _ hlists => LazyList.isComplete_flatMap_ofList.2 hlists

/-- A step of the enumeration ends if what it goes on to does. -/
theorem ended_step (hp : p.Expandable r (n + 1))
    (hsource : ∀ q s, q.Expandable s n → Ended (source q .empty s)) :
    Ended (step (Engine.ofBudget n) source p .empty r) := by
  have hinner (q : Pattern) (hq : q ∈ p.inner) : Ended (source q .empty r) :=
    hsource q r (hp.inside hq)
  cases p with
  | scalar | anything | exact => exact rfl
  | object layout keys title =>
    exact ended_object fun m hm => hinner m.2 (List.mem_map_of_mem hm)
  | array elements =>
    refine ended_array fun q hq => ⟨hinner q hq, fun q' hq' => ?_⟩
    have hq := hp.inside hq
    cases n with
    | zero => exact absurd hq.depth_lt (Nat.not_lt_zero _)
    | succ n => exact hsource q' r ((hq.inside hq').mono (Nat.le_succ n))
  | list element | rest element | csv element | inString element =>
    exact ended_map (hinner element List.mem_cons_self)
  | dictionary key value =>
    exact ended_map (hinner value (List.mem_cons_of_mem _ List.mem_cons_self))
  | xml => exact hp.pattern.here.elim
  | union members title text =>
    obtain rfl : text = none := hp.pattern.here
    exact ended_members hinner
  | enumeration shape =>
    rw [step]
    split
    · exact (hp.parse_enumeration _).map fun _ _ => rfl
    · exact LazyList.isComplete_ofList _
  | reference name =>
    rw [step]
    split
    · exact rfl
    · next s hs =>
      split
      · trivial
      · next q hq => exact hsource q s (hp.expand hs hq)
  | lookup key type => exact hinner type List.mem_cons_self

/-- A budget above the depth ends every enumeration, by induction on the budget. -/
theorem ended_ofBudget (hp : p.Expandable r n) : Ended (ofBudget n p .empty r) := by
  induction n generalizing p r with
  | zero => exact absurd hp.depth_lt (Nat.not_lt_zero _)
  | succ n ih => exact ended_step hp fun q s hq => ih hq

end Variants

/-! ## Computed budgets -/

namespace Pattern

variable {r : Resolver} {p : Pattern}

/-- The computed budgets are above the depth. -/
theorem depth_lt_budgetFor {size : Nat} (h : p.weight + r.weight ≤ size) :
    r.depth p < Engine.budgetFor size := by
  have hroom : r.room ≤ r.registry.length := List.length_filter_le _ _
  have hweight : 1 + r.registry.length + weightOfFields r.registry ≤ r.weight :=
    Nat.le_add_right _ _
  have hsquare : r.room * (weightOfFields r.registry + 1) ≤ size * size :=
    Nat.mul_le_mul (by omega) (by omega)
  calc
    r.room * (weightOfFields r.registry + 1) + p.weight < (size + 2) * (size + 2) := by
      have hsum : (size + 2) * (size + 2) = size * size + 4 * size + 4 := by ring
      omega
    _ = (size + 2) ^ 2 := (sq _).symm
    _ ≤ (size + 2) ^ 4 := Nat.pow_le_pow_right (by omega) (by omega)

/-- Without facts, XML elements and unions with an example of their own generation gives a value or
an error for every outcome of the choices, and the variants for the empty row are an error or
finitely many, whatever names are registered. -/
theorem generation_ends (hp : p.Throughout Generable)
    (hregistry : ∀ name q, (name, q) ∈ r.registry → q.Throughout Generable) (hf : r.facts = []) :
    (∀ c, (∃ v, p.generate r c = .ok v) ∨ ∃ err, p.generate r c = .error err) ∧
      ((∃ err, p.variants .empty r = .error err) ∨
        ∃ l, p.variants .empty r = .ok l ∧ l.isComplete = true) := by
  have hexpandable (n : Nat) (hn : r.depth p < n) : p.Expandable r n := ⟨hp, hregistry, hf, hn⟩
  refine ⟨fun c => ?_, ?_⟩
  · have hended := Generation.ended_ofBudget (hexpandable _ (depth_lt_budgetFor le_rfl)) c
    unfold generate
    cases hx : Generation.ofBudget (Engine.budgetFor (p.weight + r.weight)) p r c with
    | ok v => exact .inl ⟨v, rfl⟩
    | error err => exact .inr ⟨err, rfl⟩
    | unfinished => exact absurd hx hended.ne_unfinished
  · unfold variants
    have hended := Variants.ended_ofBudget (hexpandable
      (Engine.budgetFor (p.weight + Row.empty.weight + r.weight)) (depth_lt_budgetFor (by omega)))
    generalize Variants.ofBudget _ p .empty r = x at hended ⊢
    cases x with
    | ok l => exact .inr ⟨l, rfl, hended⟩
    | error err => exact .inl ⟨err, rfl⟩
    | unfinished => exact hended.elim

/-- A circle of aliases, a type inside itself, and a union that has itself and an unknown name as
members. -/
def tangledResolver : Resolver :=
  { Resolver.empty with
    registry := [
      ("(Loop)", .reference "(Loop)"),
      ("(Node)",
        .object .json [("next?", .reference "(Node)"), ("tree", .reference "(Tree)")] none),
      ("(Tree)",
        .union [.reference "(Tree)", .reference "(Gone)", .reference "(Loop)"] none none)] }

/-- A registry with circles of names, types inside themselves and unknown names satisfies the
conditions. -/
theorem tangled_generation_ends :
    (reference "(Node)").Throughout Generable ∧
      (∀ name q, (name, q) ∈ tangledResolver.registry → q.Throughout Generable) ∧
      tangledResolver.facts = [] ∧
      (∀ c, (∃ v, (reference "(Node)").generate tangledResolver c = .ok v) ∨
        ∃ err, (reference "(Node)").generate tangledResolver c = .error err) ∧
      ((∃ err, (reference "(Node)").variants .empty tangledResolver = .error err) ∨
        ∃ l, (reference "(Node)").variants .empty tangledResolver = .ok l ∧
          l.isComplete = true) := by
  have hname (name : String) : (reference name).Throughout Generable := .leaf trivial rfl
  have hregistry (name : String) (q : Pattern) (hq : (name, q) ∈ tangledResolver.registry) :
      q.Throughout Generable := by
    simp only [tangledResolver, List.mem_cons, List.not_mem_nil, or_false, Prod.mk.injEq] at hq
    rcases hq with ⟨-, rfl⟩ | ⟨-, rfl⟩ | ⟨-, rfl⟩
    · exact hname _
    · exact .intro trivial (by simp [inner, hname])
    · exact .intro rfl (by simp [inner, hname])
  exact ⟨hname _, hregistry, rfl, generation_ends (hname _) hregistry rfl⟩

end Pattern

end DataContract
