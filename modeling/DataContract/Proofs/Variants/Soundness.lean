import DataContract.Proofs.Variants.Structures

/-!
# Positive variants stay inside their pattern

What a variant accepts, the pattern that it is a variant of does not reject
(`Pattern.not_rejects_of_variant`), for every example row and also where the registry is recursive.
The induction is on the budget of the enumeration: variants that refine the parts make variants
that refine the whole.
-/

namespace DataContract

namespace Variants

open Pattern (VariantNode Refines)

variable {source : VariantSource} {r r' : Resolver} {row : Row} {p q : Pattern} {n : Nat}
  {l : LazyList Pattern}

/-! ## One variant, and variants of one part -/

/-- A single variant that refines the pattern is a sound enumeration. -/
theorem soundVariants_singleton (hrest : q.isRest = false) (hq : q.Refines p r) :
    p.SoundVariants (.singleton q) r := by
  refine ⟨fun hm => ?_, fun hm => ?_, LazyList.singleton_ne_nil q⟩
  · obtain rfl := List.mem_singleton.1 hm
    exact hq
  · obtain rfl := List.mem_singleton.1 hm
    exact hrest

/-- A pattern refines itself. -/
theorem soundVariants_self (hrest : p.isRest = false) : p.SoundVariants (.singleton p) r :=
  soundVariants_singleton hrest (Pattern.refines_refl p r)

/-- The value that a text is read as refines the pattern that it is read with. -/
theorem soundVariants_read {text : String} (hl : r.config.mockMode = false) (hr : r'.Alike r)
    (h : (((Engine.ofBudget n).parse p text r').map fun v =>
      LazyList.singleton (Pattern.exact v)) = .ok l) : p.SoundVariants l r := by
  obtain ⟨v, hv, rfl⟩ := Outcome.map_eq_ok.1 h
  exact soundVariants_singleton rfl
    (Pattern.refines_of_not_rejects hl (Pattern.not_rejects_of_alike_parse hl hr hv))

/-- What is built around each variant of a part varies the whole. -/
theorem soundVariants_map {f : Pattern → Pattern} {whole : Pattern} (hp : p.SoundVariants l r)
    (hrest : ∀ q, (f q).isRest = false) (hf : ∀ q, q.Refines p r → (f q).Refines whole r) :
    whole.SoundVariants (l.map f) r := by
  refine ⟨fun hm => ?_, fun hm => ?_, by simpa using hp.ne_nil⟩
  · obtain ⟨q, hq, rfl⟩ := LazyList.mem_toList_map hm
    exact hf q (hp.refines hq)
  · obtain ⟨q, hq, rfl⟩ := LazyList.mem_toList_map hm
    exact hrest q

/-- Variants of a pattern that refines another one are variants of that. -/
theorem soundVariants_of_refines (hq : q.SoundVariants l r)
    (hp : ∀ q' : Pattern, q'.Refines q r → q'.Refines p r) : p.SoundVariants l r :=
  ⟨fun hm => hp _ (hq.refines hm), hq.not_rest, hq.ne_nil⟩

/-- Refining the element refines the list. -/
theorem refines_list {element : Pattern} {title : Option String} {min : Nat}
    (hl : r.config.mockMode = false) (hq : q.Refines element r) :
    (Pattern.list q title min).Refines (.list element title min) r := by
  intro v ha
  obtain ⟨items, rfl, hmin, hitems⟩ := ha.fits hl
  exact Pattern.not_rejects_of_fits hl
    ⟨items, rfl, hmin, fun item hi => hq item (hitems item hi)⟩

/-- Refining the values refines the dictionary. -/
theorem refines_dictionary {key value : Pattern} (hl : r.config.mockMode = false)
    (hq : q.Refines value r) : (Pattern.dictionary key q).Refines (.dictionary key value) r := by
  intro v ha
  obtain ⟨members, rfl, hmembers⟩ := ha.fits hl
  refine Pattern.not_rejects_of_fits hl ⟨members, rfl, fun m hm => ?_⟩
  obtain ⟨hkey, hvalue⟩ := hmembers m hm
  exact ⟨hkey.not_refuses (.refl r), hq m.2 hvalue⟩

/-! ## Unions -/

/-- What refines a member refines the union. -/
theorem refines_union {members : List Pattern} {title text : Option String}
    (hl : r.config.mockMode = false) (hp : p ∈ members) (hq : q.Refines p r) :
    q.Refines (.union members title text) r := fun v ha =>
  Pattern.not_rejects_of_fits hl (.inl ⟨p, hp, hq v ha⟩)

/-- The variants of the members are the variants of the union. -/
theorem soundVariants_union {patterns : List Pattern} {title text : Option String}
    (hl : r.config.mockMode = false) (hs : source.Sound r) (hr : r'.Enumerates r)
    (hp : (Pattern.union patterns title text).Everywhere VariantNode)
    (h : members source patterns row r' = .ok l) :
    (Pattern.union patterns title text).SoundVariants l r := by
  refine ⟨fun hq => ?_, fun hq => ?_, ?_⟩
  · obtain ⟨p, hm, l, hsource, hq⟩ := exists_of_mem_members h hq
    exact refines_union hl hm ((hs.variants hr (hp.part hm) hsource).refines hq)
  · obtain ⟨p, hm, l, hsource, hq⟩ := exists_of_mem_members h hq
    exact (hs.variants hr (hp.part hm) hsource).not_rest hq
  · exact members_ne_nil hp.here (fun p hm => hs.begins hr (hp.part hm)) h

/-- The members of an enumeration are its variants. -/
theorem soundVariants_enumeration {shape : Enumeration} (hl : r.config.mockMode = false)
    (hp : (Pattern.enumeration shape).Everywhere VariantNode) :
    (Pattern.enumeration shape).SoundVariants (.ofList shape.members) r := by
  have hne : shape.members ≠ [] := hp.here
  refine ⟨fun hq => ?_, fun hq => ?_, by simpa using hne⟩
  · rw [LazyList.toList_ofList] at hq
    exact fun v ha => Pattern.not_rejects_of_fits hl
      (.inl ⟨_, hq, ha.not_rejects (Value.equal_self v) (.refl r)⟩)
  · rw [LazyList.toList_ofList] at hq
    exact isRest_of_everywhere (hp.part hq)

/-! ## Names and keys of rows -/

/-- Expanding a name keeps what an enumeration relies on. -/
theorem enumerates_of_expand {name : String} {s : Resolver} (hr : r'.Enumerates r)
    (h : r'.expand name = .ok s) : s.Enumerates r := by
  refine ⟨(Resolver.Alike.of_expand h).trans hr.alike, ?_⟩
  unfold Resolver.expand at h
  split at h
  · cases h
  · cases h
    exact hr.cap

/-- What refines the pattern behind a name refines the name. -/
theorem refines_reference {name : String} (hl : r.config.mockMode = false)
    (hresolve : r.resolve name = .ok p) (hq : q.Refines p r) : q.Refines (.reference name) r :=
  fun v ha => Pattern.not_rejects_reference hl hresolve (hq v ha)

/-- Refining the looked-up pattern refines the lookup. -/
theorem refines_lookup {key : String} {type : Pattern} (hl : r.config.mockMode = false)
    (hq : q.Refines type r) : q.Refines (.lookup key type) r := fun v ha =>
  Pattern.not_rejects_of_fits hl (hq v ha)

/-! ## All patterns -/

/-- From sound variants of the parts come sound variants of the whole. -/
theorem soundVariants_step (hl : r.config.mockMode = false) (hreg : r.Everywhere VariantNode)
    (hs : source.Sound r) (hr : r'.Enumerates r) (hp : p.Everywhere VariantNode)
    (h : step (Engine.ofBudget n) source p row r' = .ok l) : p.SoundVariants l r := by
  cases p with
  | scalar | anything | exact =>
    cases h
    exact soundVariants_self rfl
  | object layout keys title =>
    exact ⟨fun hq => (refines_of_object hl hs hr hp h hq).2,
      fun hq => (refines_of_object hl hs hr hp h hq).1,
      object_ne_nil hr.cap (fun m hm => hs.begins hr (hp.key hm)) h⟩
  | array elements =>
    exact ⟨fun hq => (refines_of_array hl hs hr hp h hq).2,
      fun hq => (refines_of_array hl hs hr hp h hq).1, array_ne_nil h⟩
  | list element title min =>
    obtain ⟨l, hlist, rfl⟩ := Outcome.map_eq_ok.1 h
    exact soundVariants_map (hs.variants hr (hp.part List.mem_cons_self) hlist) (fun _ => rfl)
      fun _ hq => refines_list hl hq
  | dictionary key value =>
    obtain ⟨l, hlist, rfl⟩ := Outcome.map_eq_ok.1 h
    have hvalue := hp.part (List.mem_cons_of_mem _ List.mem_cons_self)
    exact soundVariants_map (hs.variants hr hvalue hlist) (fun _ => rfl)
      fun _ hq => refines_dictionary hl hq
  | union patterns title text =>
    cases text with
    | some text => exact soundVariants_read hl hr.alike h
    | none => exact soundVariants_union hl hs hr hp h
  | enumeration shape =>
    unfold step at h
    dsimp only at h
    split at h
    · exact soundVariants_read hl hr.alike h
    · cases h
      exact soundVariants_enumeration hl hp
  | reference name =>
    unfold step at h
    dsimp only at h
    split at h
    · cases h
      exact soundVariants_self rfl
    · next s hexpand =>
      have hsr := enumerates_of_expand hr hexpand
      split at h
      · cases h
      · next p hresolve =>
        rw [hsr.alike.resolve] at hresolve
        exact soundVariants_of_refines (hs.variants hsr (hreg.resolve hresolve) h)
          fun _ hq => refines_reference hl hresolve hq
  | lookup key type =>
    obtain ⟨given, hgiven, h⟩ := Outcome.bind_eq_ok.1 h
    cases given with
    | some given =>
      cases h
      obtain ⟨v, rfl, hrefines⟩ := exists_of_rowExample hl hr.alike hgiven
      exact soundVariants_singleton rfl (refines_lookup hl hrefines)
    | none =>
      exact soundVariants_of_refines (hs.variants hr (hp.part List.mem_cons_self) h)
        fun _ hq => refines_lookup hl hq
  | rest | xml | inString | csv => exact hp.here.elim

/-- At every budget the variants refine their pattern, by induction on the budget. -/
theorem sound_ofBudget (hl : r.config.mockMode = false) (hreg : r.Everywhere VariantNode)
    (n : Nat) : (ofBudget n).Sound r := by
  induction n with
  | zero =>
    constructor
    intro p row r' l hr hp h
    cases h
  | succ n ih => exact ⟨soundVariants_step hl hreg ih⟩

end Variants

namespace Pattern

/-- The second pattern is among the variants that an enumeration on some budget gives for a row. -/
def HasVariant (p : Pattern) (row : Row) (r : Resolver) (q : Pattern) : Prop :=
  ∃ n l, Variants.ofBudget n p row r = .ok l ∧ q ∈ l.toList

variable {p q : Pattern} {row : Row} {r : Resolver} {v : Value}

/-- What the engine lists on its own budget is a variant of the pattern. -/
theorem hasVariant_of_variants {l : LazyList Pattern} (h : p.variants row r = .ok l)
    (hq : q ∈ l.toList) : p.HasVariant row r q :=
  ⟨_, l, h, hq⟩

/-- A pattern does not reject what one of its variants accepts. -/
theorem not_rejects_of_variant (hl : r.config.mockMode = false)
    (hmax : 0 < r.config.maxCombinations) (hreg : r.Everywhere VariantNode)
    (hp : p.Everywhere VariantNode) (hq : p.HasVariant row r q) (ha : q.Accepts v r) :
    ¬ p.Rejects v r := by
  obtain ⟨n, l, hlist, hq⟩ := hq
  exact ((Variants.sound_ofBudget hl hreg n).variants ⟨.refl r, hmax⟩ hp hlist).refines hq v ha

/-- A recursive type: a tree has branches, perhaps a label, and a size that may be null. -/
def tree : Pattern :=
  .object .json
    [("branches", .array [.number, .rest (.reference "(Tree)") 0]), ("label?", .string),
      ("size", .union [.null, .number] none none)] none

/-- The variant of a tree whose size is given: the branches are references still, the label is
there. -/
def treeVariant : Pattern :=
  .object .json
    [("branches", .array [.number, .rest (.reference "(Tree)") 0]), ("label", .string),
      ("size", .exact (.number .one))] none

/-- A tree with one branch. -/
def forkedTree : Value :=
  .object
    [("branches", .array [.number .one, .object
        [("branches", .array [.number .one]), ("size", .null)]]),
      ("label", .string "fork"), ("size", .number .one)]

/-- The recursive pattern of the example is built from the allowed forms only. -/
theorem tree_everywhere : tree.Everywhere VariantNode := by
  have hscalar {s : Scalar} : (scalar s).Everywhere VariantNode := .leaf trivial rfl
  have htree : (reference "(Tree)").Everywhere VariantNode := .leaf trivial rfl
  refine .intro (plainKeys_of_forall (by decide) (by decide)) fun q hq => ?_
  obtain rfl | rfl | rfl : q = .array [.number, .rest (.reference "(Tree)") 0] ∨ q = .string ∨
      q = .union [.null, .number] none none := by
    simpa [tree, parts, declaredKeys, ellipsis] using hq
  · refine .intro ⟨rfl, fun p min h => ?_⟩ fun q hq => ?_
    · cases h
      rfl
    · obtain rfl | rfl : q = .number ∨ q = .reference "(Tree)" := by
        simpa [parts, splitRest] using hq
      · exact hscalar
      · exact htree
  · exact hscalar
  · refine .intro (List.cons_ne_nil _ _) fun q hq => ?_
    obtain rfl | rfl : q = .null ∨ q = .number := by simpa [parts] using hq
    · exact hscalar
    · exact hscalar

/-- The variant accepts a tree with one branch, and the type does not reject it. -/
theorem forkedTree_not_rejects :
    (reference "(Tree)").HasVariant (Row.ofCells [("size", "1")]) (.register .empty "Tree" tree)
        treeVariant ∧
      treeVariant.Accepts forkedTree (.register .empty "Tree" tree) ∧
      ¬ (reference "(Tree)").Rejects forkedTree (.register .empty "Tree" tree) := by
  have hvariant : (reference "(Tree)").HasVariant (Row.ofCells [("size", "1")])
      (.register .empty "Tree" tree) treeVariant :=
    ⟨12, _, rfl, List.mem_of_getElem? (i := 0) rfl⟩
  have haccepts : treeVariant.Accepts forkedTree (.register .empty "Tree" tree) := ⟨12, rfl⟩
  have hreg : (Resolver.register .empty "Tree" tree).Everywhere VariantNode := by
    intro k q hq
    cases hq with
    | head => exact tree_everywhere
    | tail _ h => cases h
  exact ⟨hvariant, haccepts, not_rejects_of_variant rfl (by decide) hreg
    (.leaf trivial rfl) hvariant haccepts⟩

end Pattern

end DataContract
