import DataContract.Proofs.Everywhere
import DataContract.Proofs.Outcomes
import DataContract.Proofs.Reading.Examples
import DataContract.Proofs.Selections
import DataContract.Variants

/-!
# Variants of structures stay inside the structure

A variant of a pattern refines it if the pattern rejects nothing that the variant accepts
(`Pattern.Refines`). Each theorem takes one kind of structure: if the variants of the parts refine
the parts (`VariantSource.Sound`), then the variants of the structure refine the structure. This
needs that every part has variants, since a key or a place without candidates is left out.
-/

namespace DataContract

namespace Pattern

/-- What the first pattern accepts, the second one does not reject. -/
def Refines (q p : Pattern) (r : Resolver) : Prop :=
  ∀ v, q.Accepts v r → ¬ p.Rejects v r

/-- A pattern of which variants are taken: the base names of the keys of an object are plain, a
union has members, and a repetition is only the last element of an array and may be empty. -/
def VariantNode : Pattern → Prop
  | .object _ keys _ => PlainKeys keys
  | .array elements =>
    RestLast elements ∧ ∀ p min, (splitRest elements).2 = some (p, min) → min = 0
  | .union members _ _ => members ≠ []
  | .enumeration e => e.members ≠ []
  | .rest _ _ => False
  | .xml _ => False
  | .inString _ => False
  | .csv _ => False
  | _ => True

/-- Every pattern refines itself, since no value is both accepted and rejected. -/
theorem refines_refl (p : Pattern) (r : Resolver) : p.Refines p r :=
  fun _ h => h.not_rejects (Value.equal_self _) (.refl r)

/-- The exact pattern of a value that is not rejected refines the pattern. -/
theorem refines_of_not_rejects {p : Pattern} {w : Value} {r : Resolver}
    (hl : r.config.mockMode = false) (h : ¬ p.Rejects w r) : (exact w).Refines p r := by
  intro v ha hv
  have heq : w.equal v = true := ha.fits hl
  exact h (hv.congr (Value.equal_symm _ _ heq) (.refl r))

end Pattern

/-- The resolver matches like the other one, and it lets some combinations be made. -/
structure Resolver.Enumerates (r' r : Resolver) : Prop where
  alike : r'.Alike r
  cap : 0 < r'.config.maxCombinations

/-- The variants refine their pattern and are no repetitions, and there are some. -/
structure Pattern.SoundVariants (p : Pattern) (l : LazyList Pattern) (r : Resolver) : Prop where
  refines {q : Pattern} (hq : q ∈ l.toList) : q.Refines p r
  not_rest {q : Pattern} (hq : q ∈ l.toList) : q.isRest = false
  ne_nil : l ≠ .nil

/-- Whatever the source gives for the pattern has a beginning. -/
def VariantSource.Begins (source : VariantSource) (r : Resolver) (p : Pattern) : Prop :=
  ∀ row l, source p row r = .ok l → l ≠ .nil

/-- The variants that the source gives are sound. -/
structure VariantSource.Sound (source : VariantSource) (r : Resolver) : Prop where
  variants {p : Pattern} {row : Row} {r' : Resolver} {l : LazyList Pattern} (hr : r'.Enumerates r)
    (hp : p.Everywhere Pattern.VariantNode) (h : source p row r' = .ok l) : p.SoundVariants l r

/-- Whatever a sound source gives for a pattern of the allowed forms has a beginning. -/
theorem VariantSource.Sound.begins {source : VariantSource} {r r' : Resolver} {p : Pattern}
    (hs : source.Sound r) (hr : r'.Enumerates r) (hp : p.Everywhere Pattern.VariantNode) :
    source.Begins r' p :=
  fun _ _ h => (hs.variants hr hp h).ne_nil

namespace Variants

open Pattern (VariantNode RestLast Refines FitsObject FitsArray FitsLength declaredKeys splitRest)

variable {source : VariantSource} {r r' : Resolver} {row : Row} {p q : Pattern} {n : Nat}

/-- What is left below the cap is a variant. -/
theorem mem_of_capped {l : LazyList Pattern} {qs : List Pattern} (h : capped l r' = .ok qs)
    (hq : q ∈ qs) : q ∈ l.toList :=
  LazyList.mem_of_take (Outcome.ofOption_eq_ok.1 h) hq

/-- A positive cap leaves a variant where there is one. -/
theorem ne_nil_of_capped {l : LazyList Pattern} {qs : List Pattern}
    (hcap : 0 < r'.config.maxCombinations) (hne : l ≠ .nil) (h : capped l r' = .ok qs) : qs ≠ [] :=
  LazyList.ne_nil_of_toList? (LazyList.take_ne_nil hcap hne) (Outcome.ofOption_eq_ok.1 h)

/-- The cap is never an error. -/
theorem capped_ne_error {l : LazyList Pattern} {err : ContractError} :
    capped l r' ≠ .error err := by
  unfold capped
  cases (l.take r'.config.maxCombinations).toList? <;> exact nofun

/-- An error on the way to the first variants of a part is one of the part. -/
theorem error_of_capped {α : Type} {x : Outcome (LazyList Pattern)} {f : List Pattern → α}
    {err : ContractError} (h : (do return f (← capped (← x) r') : Outcome α) = .error err) :
    x = .error err := by
  rcases Outcome.bind_eq_error.1 h with h | ⟨l, -, h⟩
  · exact h
  · rcases Outcome.bind_eq_error.1 h with h | ⟨qs, -, h⟩
    · exact absurd h capped_ne_error
    · cases h

/-! ## Candidates

Where candidates come from, and where an error comes from if they are not found. Proofs about the
variants of objects and arrays look no further into the functions that find them.
-/

section
variable {e : Engine} {key : String} {elements : List Pattern} {candidates : List (Option Pattern)}
  {err : ContractError}

/-- The candidates for a declared key are the example of its cell or, without one, the variants of
its pattern and, if it is optional, absence; neighbours that are equal are one. -/
theorem keyCandidates_cases (h : keyCandidates e source key p row r' = .ok candidates) :
    (∃ given, e.rowExample (Key.base key) p row r' = .ok (some given) ∧
      candidates = [some given]) ∨
    (e.rowExample (Key.base key) p row r' = .ok none ∧
      ∃ l qs, source p (row.stepDown (Key.base key)) r' = .ok l ∧ capped l r' = .ok qs ∧
        candidates = (qs.map some ++ if Key.isOptional key then [none] else []).eraseReps) := by
  obtain ⟨given, hgiven, h⟩ := Outcome.bind_eq_ok.1 h
  cases given with
  | some given =>
    cases h
    exact .inl ⟨given, hgiven, rfl⟩
  | none =>
    obtain ⟨l, hlist, h⟩ := Outcome.bind_eq_ok.1 h
    obtain ⟨qs, hqs, h⟩ := Outcome.bind_eq_ok.1 h
    cases h
    exact .inr ⟨hgiven, l, qs, hlist, hqs, rfl⟩

/-- Each candidate for a declared key is the example of its cell, a variant of its pattern or, if it
is optional, absence. -/
theorem cases_of_mem_keyCandidates {a : Option Pattern}
    (h : keyCandidates e source key p row r' = .ok candidates) (ha : a ∈ candidates) :
    (∃ given, e.rowExample (Key.base key) p row r' = .ok (some given) ∧ a = some given) ∨
    (∃ l q, source p (row.stepDown (Key.base key)) r' = .ok l ∧ q ∈ l.toList ∧ a = some q) ∨
    (a = none ∧ Key.isOptional key = true) := by
  rcases keyCandidates_cases h with ⟨given, hgiven, rfl⟩ | ⟨-, l, qs, hlist, hqs, rfl⟩
  · exact .inl ⟨given, hgiven, List.mem_singleton.1 ha⟩
  · rcases List.mem_append.1 (mem_of_mem_eraseReps ha) with ha | ha
    · obtain ⟨q, hq, rfl⟩ := List.mem_map.1 ha
      exact .inr (.inl ⟨l, q, hlist, mem_of_capped hqs hq, rfl⟩)
    · split at ha
      · next hoptional => exact .inr (.inr ⟨List.mem_singleton.1 ha, hoptional⟩)
      · cases ha

/-- An error is that of the example or, where there is none, of the pattern. -/
theorem error_of_keyCandidates (h : keyCandidates e source key p row r' = .error err) :
    e.rowExample (Key.base key) p row r' = .error err ∨
    (e.rowExample (Key.base key) p row r' = .ok none ∧
      source p (row.stepDown (Key.base key)) r' = .error err) := by
  rcases Outcome.bind_eq_error.1 h with h | ⟨given, hgiven, h⟩
  · exact .inl h
  · cases given with
    | some given => cases h
    | none => exact .inr ⟨hgiven, error_of_capped h⟩

/-- The candidates for an element of an array are its variants, or those of what it repeats and
absence. -/
theorem elementCandidates_cases (h : elementCandidates source p row r' = .ok candidates) :
    (∃ element min l qs, p = .rest element min ∧ source element row r' = .ok l ∧
      capped l r' = .ok qs ∧ candidates = qs.map (fun q => some (.restOf q)) ++ [none]) ∨
    (p.isRest = false ∧ ∃ l qs, source p row r' = .ok l ∧ capped l r' = .ok qs ∧
      candidates = qs.map some) := by
  have hsingle (h : (do
      let variants ← capped (← source p row r') r'
      pure (variants.map some) : Outcome (List (Option Pattern))) = .ok candidates) :
      ∃ l qs, source p row r' = .ok l ∧ capped l r' = .ok qs ∧ candidates = qs.map some := by
    obtain ⟨l, hlist, h⟩ := Outcome.bind_eq_ok.1 h
    obtain ⟨qs, hqs, h⟩ := Outcome.bind_eq_ok.1 h
    cases h
    exact ⟨l, qs, hlist, hqs, rfl⟩
  cases p with
  | rest element min =>
    obtain ⟨l, hlist, h⟩ := Outcome.bind_eq_ok.1 h
    obtain ⟨qs, hqs, h⟩ := Outcome.bind_eq_ok.1 h
    cases h
    exact .inl ⟨element, min, l, qs, rfl, hlist, hqs, rfl⟩
  | _ => exact .inr ⟨rfl, hsingle h⟩

/-- An error for an element is one for it or for what it repeats. -/
theorem error_of_elementCandidates (h : elementCandidates source p row r' = .error err) :
    (∃ element min, p = .rest element min ∧ source element row r' = .error err) ∨
    source p row r' = .error err := by
  cases p with
  | rest element min => exact .inl ⟨element, min, rfl, error_of_capped h⟩
  | _ => exact .inr (error_of_capped h)

/-- The variants of an array are the fillings of slots with the candidates for its elements. -/
theorem exists_of_array {l : LazyList Pattern} (h : array source elements row r' = .ok l) :
    ∃ slots,
      List.Forall₂ (fun p slot => elementCandidates source p row r' = .ok slot) elements slots ∧
      l = (LazyList.ofList (Slots.fillings slots)).map .array := by
  obtain ⟨slots, hslots, h⟩ := Outcome.bind_eq_ok.1 h
  cases h
  exact ⟨slots, Outcome.forall₂_of_traverse hslots, rfl⟩

/-- An error for an array is one for an element. -/
theorem error_of_array (h : array source elements row r' = .error err) :
    ∃ p ∈ elements, elementCandidates source p row r' = .error err := by
  rcases Outcome.bind_eq_error.1 h with h | ⟨slots, -, h⟩
  · exact Outcome.exists_of_traverse_error h
  · cases h

/-- The variants of several patterns come from one of them. -/
theorem exists_of_mem_members {patterns : List Pattern} {l : LazyList Pattern}
    (h : members source patterns row r' = .ok l) (hq : q ∈ l.toList) :
    ∃ p ∈ patterns, ∃ l, source p row r' = .ok l ∧ q ∈ l.toList := by
  obtain ⟨lists, hlists, h⟩ := Outcome.bind_eq_ok.1 h
  cases h
  obtain ⟨l, hl, hq⟩ := LazyList.mem_toList_flatMap hq
  rw [LazyList.toList_ofList] at hl
  obtain ⟨p, hp, hsource⟩ := Outcome.exists_of_mem_traverse hlists hl
  exact ⟨p, hp, l, hsource, hq⟩

/-- The first member has variants. -/
theorem members_ne_nil {patterns : List Pattern} {l : LazyList Pattern} (hne : patterns ≠ [])
    (hs : ∀ p ∈ patterns, source.Begins r' p) (h : members source patterns row r' = .ok l) :
    l ≠ .nil := by
  obtain ⟨lists, hlists, h⟩ := Outcome.bind_eq_ok.1 h
  cases h
  cases Outcome.forall₂_of_traverse hlists with
  | nil => exact absurd rfl hne
  | cons hfirst _ => exact LazyList.append_ne_nil (hs _ List.mem_cons_self _ _ hfirst)

/-- An error for a union is one for a member. -/
theorem error_of_members {patterns : List Pattern}
    (h : members source patterns row r' = .error err) :
    ∃ p ∈ patterns, source p row r' = .error err := by
  rcases Outcome.bind_eq_error.1 h with h | ⟨lists, -, h⟩
  · exact Outcome.exists_of_traverse_error h
  · cases h

end

/-! ## Examples -/

/-- An example is an exact pattern that refines the pattern. -/
theorem exists_of_rowExample {name : String} {given : Pattern} (hl : r.config.mockMode = false)
    (hr : r'.Alike r) (h : (Engine.ofBudget n).rowExample name p row r' = .ok (some given)) :
    ∃ v, given = .exact v ∧ given.Refines p r := by
  obtain ⟨v, rfl, hv⟩ := Engine.exists_exact_of_rowExample hl hr h
  exact ⟨v, rfl, Pattern.refines_of_not_rejects hl hv⟩

/-! ## Objects -/

section
variable {e : Engine} {key : String} {candidates : List (Option Pattern)}

/-- A candidate for a declared key is absence, if the key is optional, or a pattern that refines the
declared one. -/
theorem refines_of_keyCandidates {a : Option Pattern} (hl : r.config.mockMode = false)
    (hs : source.Sound r) (hr : r'.Enumerates r) (hp : p.Everywhere VariantNode)
    (h : keyCandidates (Engine.ofBudget n) source key p row r' = .ok candidates)
    (ha : a ∈ candidates) :
    (a = none ∧ Key.isOptional key = true) ∨ ∃ q, a = some q ∧ q.Refines p r := by
  rcases cases_of_mem_keyCandidates h ha with
    ⟨given, hgiven, rfl⟩ | ⟨l, q, hlist, hq, rfl⟩ | habsent
  · obtain ⟨v, -, hrefines⟩ := exists_of_rowExample hl hr.alike hgiven
    exact .inr ⟨given, rfl, hrefines⟩
  · exact .inr ⟨q, rfl, (hs.variants hr hp hlist).refines hq⟩
  · exact .inl habsent

/-- Under a positive cap every key has a candidate. -/
theorem keyCandidates_ne_nil (hcap : 0 < r'.config.maxCombinations) (hp : source.Begins r' p)
    (h : keyCandidates e source key p row r' = .ok candidates) : candidates ≠ [] := by
  rcases keyCandidates_cases h with ⟨given, -, rfl⟩ | ⟨-, l, qs, hlist, hqs, rfl⟩
  · exact List.cons_ne_nil _ _
  · have hne := ne_nil_of_capped hcap (hp _ _ hlist) hqs
    exact eraseReps_ne_nil (List.append_ne_nil_of_left_ne_nil (by simpa using hne) _)

end

section
variable {keys : List (String × Pattern)} {layout : Layout} {title : Option String}
  {combination : List (String × Option Pattern)}

/-- A choice for every declared key: absence, if it is optional, or a pattern that refines the
declared one. -/
structure Chosen (keys : List (String × Pattern)) (r : Resolver)
    (combination : List (String × Option Pattern)) : Prop where
  choice : ∀ key p, (key, p) ∈ declaredKeys keys → ∃ a, (key, a) ∈ combination ∧
    ((a = none ∧ Key.isOptional key = true) ∨ ∃ q, a = some q ∧ q.Refines p r)
  declared : ∀ key a, (key, a) ∈ combination → ∃ p, (key, p) ∈ declaredKeys keys
  nodup : (combination.map (·.1)).Nodup

/-- The keys of the object of a combination. -/
def objectKeys (combination : List (String × Option Pattern)) : List (String × Pattern) :=
  Fields.ofPairs (combination.filterMap fun a => a.2.map (Key.base a.1, ·))

/-- Under distinct base names the object has the patterns that are not left out. -/
theorem get?_objectKeys_of_nodup (hd : (combination.map fun a => Key.base a.1).Nodup)
    (name : String) (q : Pattern) :
    Fields.get? (objectKeys combination) name = some q ↔
      ∃ key, (key, some q) ∈ combination ∧ Key.base key = name := by
  rw [objectKeys, Fields.get?_ofPairs_filterMap hd]
  constructor
  · rintro ⟨⟨key, a⟩, ha, rfl, rfl⟩
    exact ⟨key, ha, rfl⟩
  · rintro ⟨key, ha, rfl⟩
    exact ⟨_, ha, rfl, rfl⟩

/-- An object made of choices declares, under its plain name, each key with a chosen pattern. -/
theorem get?_objectKeys (hc : Chosen keys r combination)
    (hd : ((declaredKeys keys).map fun m => Key.base m.1).Nodup) (name : String) (q : Pattern) :
    Fields.get? (objectKeys combination) name = some q ↔
      ∃ key, (key, some q) ∈ combination ∧ Key.base key = name := by
  have hinj : ∀ a ∈ combination, ∀ b ∈ combination, Key.base a.1 = Key.base b.1 → a = b := by
    rintro ⟨key, a⟩ ha ⟨key', b⟩ hb he
    obtain ⟨p, hp⟩ := hc.declared key a ha
    obtain ⟨p', hp'⟩ := hc.declared key' b hb
    have hsame := List.inj_on_of_nodup_map hd hp hp' he
    have hkey : key = key' := congrArg Prod.fst hsame
    exact List.inj_on_of_nodup_map hc.nodup ha hb hkey
  exact get?_objectKeys_of_nodup (hc.nodup.of_map.map_on hinj) name q

/-- A chosen pattern stands under the base name of its key, which has no mark. -/
theorem mem_objectKeys (hc : Chosen keys r combination) (hk : Pattern.PlainKeys keys)
    {key : String} (ha : (key, some q) ∈ combination) :
    Key.isOptional (Key.base key) = false ∧
      (Key.base key, q) ∈ declaredKeys (objectKeys combination) := by
  obtain ⟨p, hp⟩ := hc.declared key _ ha
  obtain ⟨hmandatory, hne⟩ := hk.mandatory _ hp
  have hget := (get?_objectKeys hc hk.nodup _ _).2 ⟨key, ha, rfl⟩
  exact ⟨hmandatory, Pattern.mem_declaredKeys.2 ⟨Fields.mem_of_get? hget, hne⟩⟩

/-- An object made of choices for plain keys is closed. -/
theorem isOpen_objectKeys (hc : Chosen keys r combination) (hk : Pattern.PlainKeys keys) :
    Pattern.isOpen (objectKeys combination) = false := by
  refine Bool.eq_false_iff.2 fun hopen => ?_
  obtain ⟨q, hq⟩ := Option.isSome_iff_exists.1 hopen
  obtain ⟨key, ha, he⟩ := (get?_objectKeys hc hk.nodup _ _).1 hq
  obtain ⟨p, hp⟩ := hc.declared key _ ha
  exact (hk.mandatory _ hp).2 he

/-- Every key of a value of the combination's object stems from a key that is not left out. -/
theorem exists_chosen_of_name (hc : Chosen keys r combination) (hk : Pattern.PlainKeys keys)
    {members : List (String × Value)} {name : String}
    (h : Engine.unexpectedKeys (objectKeys combination) members = [])
    (hn : name ∈ Fields.names members) :
    ∃ key q, (key, some q) ∈ combination ∧ Key.base key = name := by
  obtain ⟨found, q, hfound⟩ := Engine.keyNamed?_of_unexpectedKeys (isOpen_objectKeys hc hk) h hn
  obtain ⟨hq, hcase⟩ := Pattern.keyNamed?_eq_some hfound
  obtain ⟨key, ha, rfl⟩ := (get?_objectKeys hc hk.nodup _ _).1 hq
  rcases hcase with he | he
  · exact ⟨key, q, ha, he⟩
  · have hmandatory := (mem_objectKeys hc hk ha).1
    rw [he, Key.isOptional_optional] at hmandatory
    cases hmandatory

/-- A value of the combination's object has every mandatory key. -/
theorem missingKeys_of_chosen (hc : Chosen keys r combination) (hk : Pattern.PlainKeys keys)
    {members : List (String × Value)}
    (h : Engine.missingKeys (objectKeys combination) members = []) :
    Engine.missingKeys keys members = [] := by
  refine Engine.missingKeys_eq_nil_iff.2 fun key p hp hkey => ?_
  obtain ⟨a, ha, ⟨-, hoptional⟩ | ⟨q, rfl, -⟩⟩ := hc.choice key p hp
  · rw [hkey] at hoptional
    cases hoptional
  · obtain ⟨hmandatory, hq⟩ := mem_objectKeys hc hk ha
    have hhas := Engine.missingKeys_eq_nil_iff.1 h _ _ hq hmandatory
    rwa [Key.base_of_mandatory hmandatory] at hhas

/-- The object of a combination refines the object pattern. -/
theorem refines_of_chosen (hl : r.config.mockMode = false)
    (hk : Pattern.PlainKeys keys) (hc : Chosen keys r combination) :
    (objectOf layout title combination).Refines (.object layout keys title) r := by
  intro v ha
  obtain ⟨members, rfl, hunexpected, hmissing, hvalues⟩ := ha.fits hl
  refine Pattern.not_rejects_of_fits hl
    ⟨members, rfl, ?_, missingKeys_of_chosen hc hk hmissing, ?_⟩
  · refine Engine.unexpectedKeys_eq_nil fun name hn => ?_
    obtain ⟨key, q, ha, rfl⟩ := exists_chosen_of_name hc hk hunexpected hn
    obtain ⟨p, hp⟩ := hc.declared key _ ha
    exact Pattern.keyNamed?_base_ne_none (Pattern.mem_declaredKeys.1 hp).1
  · rintro ⟨name, p, v⟩ hpart
    obtain ⟨key, hp, hbase, hv⟩ := Engine.mem_presentKeys.1 hpart
    obtain ⟨a, ha, ⟨rfl, -⟩ | ⟨q, rfl, hq⟩⟩ := hc.choice key p hp
    · -- The key is left out, so the value cannot have it.
      have hn := Fields.has_iff_mem_names.1 (by rw [Fields.has, hv]; rfl)
      obtain ⟨key', q, ha', he⟩ := exists_chosen_of_name hc hk hunexpected hn
      obtain ⟨p', hp'⟩ := hc.declared key' _ ha'
      have hkey : key' = key := congrArg Prod.fst (List.inj_on_of_nodup_map hk.nodup hp' hp he)
      cases List.inj_on_of_nodup_map hc.nodup ha ha' hkey.symm
    · obtain ⟨hmandatory, hmem⟩ := mem_objectKeys hc hk ha
      have hbasebase := Key.base_of_mandatory hmandatory
      refine hq v (hvalues (Key.base key, q, v) ?_)
      exact Engine.mem_presentKeys.2 ⟨Key.base key, hmem, hbasebase, by rw [hbasebase]; exact hv⟩

/-- A tuple of candidates, one for each declared key, relates to the keys as the candidates do. -/
theorem forall₂_zip_tuple {R : String × Pattern → Option Pattern → Prop}
    {declared : List (String × Pattern)} {keyed : List (String × List (Option Pattern))}
    {tuple : List (Option Pattern)}
    (hkeyed : List.Forall₂ (fun m k => k.1 = m.1 ∧ ∀ a ∈ k.2, R m a) declared keyed)
    (htuple : List.Forall₂ (· ∈ ·) tuple (keyed.map (·.2))) :
    List.Forall₂ (fun m a => m.1 = a.1 ∧ R m a.2) declared
      ((keyed.map (·.1)).zip tuple) := by
  induction hkeyed generalizing tuple with
  | nil =>
    cases htuple
    exact .nil
  | cons hk _ ih =>
    cases htuple with
    | cons ha htuple => exact .cons ⟨hk.1.symm, hk.2 _ ha⟩ (ih htuple)

/-- A candidate of every key is a choice for every key. -/
theorem chosen_of_forall₂ {keyed : List (String × List (Option Pattern))}
    {tuple : List (Option Pattern)} (hd : ((declaredKeys keys).map (·.1)).Nodup)
    (hkeyed : List.Forall₂
      (fun m k => k.1 = m.1 ∧ ∀ a ∈ k.2,
        (a = none ∧ Key.isOptional m.1 = true) ∨ ∃ q, a = some q ∧ q.Refines m.2 r)
      (declaredKeys keys) keyed)
    (htuple : List.Forall₂ (· ∈ ·) tuple (keyed.map (·.2))) :
    Chosen keys r (Fields.ofPairs ((keyed.map (·.1)).zip tuple)) := by
  have hpairs := forall₂_zip_tuple hkeyed htuple
  have hnames : (declaredKeys keys).map (·.1) = ((keyed.map (·.1)).zip tuple).map (·.1) :=
    map_eq_of_forall₂ hpairs fun m a h => h.1
  have hnodup := hnames ▸ hd
  refine ⟨fun key p hp => ?_, fun key a ha => ?_, (Fields.ordered_ofPairs _).nodup⟩
  · obtain ⟨⟨key', a⟩, ha, hkey, ha'⟩ := exists_right_of_forall₂ hpairs hp
    obtain rfl : key = key' := hkey
    exact ⟨a, (Fields.mem_ofPairs hnodup).2 ha, ha'⟩
  · obtain ⟨⟨key', p⟩, hp, hkey, -⟩ :=
      exists_left_of_forall₂ hpairs ((Fields.mem_ofPairs hnodup).1 ha)
    obtain rfl : key' = key := hkey
    exact ⟨p, hp⟩

/-- The keyed candidates of an object, one list for every declared key. -/
theorem exists_of_object {e : Engine} {l : LazyList Pattern}
    (h : object e source layout keys title row r' = .ok l) :
    ∃ (keyed : List (String × List (Option Pattern))) (spec : CombinationSpec (Option Pattern)),
      List.Forall₂
        (fun m k => k.1 = m.1 ∧ keyCandidates e source m.1 m.2 row r' = .ok k.2)
        (declaredKeys keys) keyed ∧
      CombinationSpec.ofCandidates keyed r'.config.maxCombinations = .ok spec ∧
      l = spec.combinations.map (objectOf layout title) := by
  obtain ⟨keyed, hkeyed, h⟩ := Outcome.bind_eq_ok.1 h
  obtain ⟨spec, hspec, h⟩ := Outcome.bind_eq_ok.1 h
  cases h
  refine ⟨keyed, spec, ?_, Outcome.ofExcept_eq_ok.1 hspec, rfl⟩
  refine (Outcome.forall₂_of_traverse hkeyed).imp ?_
  rintro ⟨key, p⟩ ⟨key', candidates⟩ hab
  obtain ⟨candidates, hcandidates, hab⟩ := Outcome.bind_eq_ok.1 hab
  cases hab
  exact ⟨rfl, hcandidates⟩

/-- An error is that of a declared key, or of the selection. -/
theorem error_of_object {e : Engine} {err : ContractError}
    (h : object e source layout keys title row r' = .error err) :
    (∃ key p, (key, p) ∈ declaredKeys keys ∧
      keyCandidates e source key p row r' = .error err) ∨
    ∃ keyed : List (String × List (Option Pattern)),
      CombinationSpec.ofCandidates keyed r'.config.maxCombinations = .error err := by
  rcases Outcome.bind_eq_error.1 h with h | ⟨keyed, -, h⟩
  · obtain ⟨⟨key, p⟩, hkey, h⟩ := Outcome.exists_of_traverse_error h
    rcases Outcome.bind_eq_error.1 h with h | ⟨candidates, -, h⟩
    · exact .inl ⟨key, p, hkey, h⟩
    · cases h
  · rcases Outcome.bind_eq_error.1 h with h | ⟨spec, -, h⟩
    · exact .inr ⟨keyed, Outcome.ofExcept_eq_error.1 h⟩
    · cases h

section
variable {e : Engine} {l : LazyList Pattern}

/-- The selection that the variants of an object pattern come from has candidates for every
declared key. -/
theorem spec_of_object (hcap : 0 < r'.config.maxCombinations)
    (hp : ∀ m ∈ declaredKeys keys, source.Begins r' m.2)
    (h : object e source layout keys title row r' = .ok l) :
    ∃ (keyed : List (String × List (Option Pattern))) (spec : CombinationSpec (Option Pattern)),
      List.Forall₂
        (fun m k => k.1 = m.1 ∧ keyCandidates e source m.1 m.2 row r' = .ok k.2)
        (declaredKeys keys) keyed ∧
      spec = ⟨keyed.map (·.1), keyed.map (·.2), r'.config.maxCombinations⟩ ∧
      (∀ candidates ∈ spec.candidates, candidates ≠ []) ∧
      l = spec.combinations.map (objectOf layout title) := by
  obtain ⟨keyed, spec, hkeyed, hspec, rfl⟩ := exists_of_object h
  have hne : ∀ k ∈ keyed, k.2 ≠ [] := by
    intro k hk
    obtain ⟨⟨key, p⟩, hm, -, hcandidates⟩ := exists_left_of_forall₂ hkeyed hk
    exact keyCandidates_ne_nil hcap (hp _ hm) hcandidates
  obtain rfl := CombinationSpec.eq_of_ofCandidates hne hspec
  refine ⟨keyed, _, hkeyed, rfl, ?_, rfl⟩
  intro candidates hc
  obtain ⟨k, hk, rfl⟩ := List.mem_map.1 hc
  exact hne k hk

/-- A variant of an object is no rest and refines the object. -/
theorem refines_of_object (hl : r.config.mockMode = false) (hs : source.Sound r)
    (hr : r'.Enumerates r) (hp : (Pattern.object layout keys title).Everywhere VariantNode)
    (h : object (Engine.ofBudget n) source layout keys title row r' = .ok l)
    (hq : q ∈ l.toList) : q.isRest = false ∧ q.Refines (.object layout keys title) r := by
  have hbegins : ∀ m ∈ declaredKeys keys, source.Begins r' m.2 :=
    fun m hm => hs.begins hr (hp.key hm)
  obtain ⟨keyed, spec, hkeyed, hspec, hne, rfl⟩ := spec_of_object hr.cap hbegins h
  have hlen : spec.keys.length = spec.candidates.length := by simp [hspec]
  obtain ⟨combination, hcombination, rfl⟩ := LazyList.mem_toList_map hq
  obtain ⟨tuple, rfl, htuple⟩ := CombinationSpec.exists_of_mem_combinations hlen hne hcombination
  subst hspec
  refine ⟨rfl, refines_of_chosen hl hp.here (chosen_of_forall₂ ?_ ?_ htuple)⟩
  · exact Pattern.PlainKeys.names_nodup hp.here
  · have hdeclared : ∀ m ∈ declaredKeys keys, m.2.Everywhere VariantNode := fun m hm => hp.key hm
    refine ((List.forall₂_and_left _ _).2 ⟨hdeclared, hkeyed⟩).imp ?_
    rintro m k ⟨hm, hkey, hcandidates⟩
    exact ⟨hkey, fun a ha => refines_of_keyCandidates hl hs hr hm hcandidates ha⟩

/-- Under a positive cap an object has a variant where each of its keys does. -/
theorem object_ne_nil (hcap : 0 < r'.config.maxCombinations)
    (hp : ∀ m ∈ declaredKeys keys, source.Begins r' m.2)
    (h : object e source layout keys title row r' = .ok l) : l ≠ .nil := by
  obtain ⟨keyed, spec, -, hspec, hne, rfl⟩ := spec_of_object hcap hp h
  have hlen : spec.keys.length = spec.candidates.length := by simp [hspec]
  rw [ne_eq, LazyList.map_eq_nil]
  exact CombinationSpec.combinations_ne_nil hlen hne (by rw [hspec]; exact hcap)

end

end

/-! ## Arrays -/

/-- What an element of an array may be replaced by: a repetition by nothing or by a repetition of a
pattern that refines the repeated one, any other element by a pattern that refines it. -/
inductive Placed (r : Resolver) : Pattern → Option Pattern → Prop where
  | absent {element : Pattern} {min : Nat} : Placed r (.rest element min) none
  | repeated {element q : Pattern} {min : Nat} (h : q.Refines element r) :
      Placed r (.rest element min) (some (.rest q 0))
  | single {p q : Pattern} (hp : p.isRest = false) (hq : q.isRest = false) (h : q.Refines p r) :
      Placed r p (some q)

section
variable {elements : List Pattern} {picks candidates : List (Option Pattern)}

/-- An array of which the elements are replaced has as many fixed elements, and repeats at its end
at most what was repeated there. -/
theorem splitRest_of_placed (h : List.Forall₂ (Placed r) elements picks)
    (hlast : RestLast elements) :
    List.Forall₂ (fun p q => q.Refines p r) (splitRest elements).1
        (splitRest (picks.filterMap id)).1 ∧
      ((splitRest (picks.filterMap id)).2 = none ∨
        ∃ p min q, (splitRest elements).2 = some (p, min) ∧
          (splitRest (picks.filterMap id)).2 = some (q, 0) ∧ q.Refines p r) := by
  induction h with
  | nil => exact ⟨.nil, .inl rfl⟩
  | @cons p a elements picks ha h ih =>
    cases ha with
    | absent =>
      obtain rfl : elements = [] := hlast
      cases h
      exact ⟨.nil, .inl rfl⟩
    | repeated hq =>
      obtain rfl : elements = [] := hlast
      cases h
      exact ⟨.nil, .inr ⟨_, _, _, rfl, rfl, hq⟩⟩
    | @single _ q hp hqrest hq =>
      obtain ⟨hfixed, hrest⟩ := ih ((Pattern.restLast_cons hp).1 hlast)
      rw [List.filterMap_cons, Pattern.splitRest_cons hp]
      dsimp only [id]
      rw [Pattern.splitRest_cons hqrest]
      exact ⟨.cons hq hfixed, hrest⟩

/-- An array refines the array of which its elements replace those. -/
theorem refines_of_placed (hl : r.config.mockMode = false)
    (hnode : VariantNode (.array elements)) (h : List.Forall₂ (Placed r) elements picks) :
    (Pattern.array (picks.filterMap id)).Refines (.array elements) r := by
  obtain ⟨hlast, hmin⟩ := hnode
  obtain ⟨hfixed, hrest⟩ := splitRest_of_placed h hlast
  generalize picks.filterMap id = replaced at hfixed hrest ⊢
  have hlen := hfixed.length_eq
  intro v ha
  obtain ⟨items, rfl, hlength, hitems⟩ := ha.fits hl
  refine Pattern.not_rejects_of_fits hl ⟨items, rfl, ?_, fun i p v hp hv => ?_⟩
  · unfold FitsLength at hlength ⊢
    rcases hrest with hnone | ⟨p, min, q, hp, hq, -⟩
    · rw [hnone, ← hlen] at hlength
      split
      · exact hlength
      · next p min hp =>
        rw [hmin p min hp, Nat.add_zero]
        exact hlength.ge
    · rw [hq, ← hlen] at hlength
      rw [hp, hmin p min hp]
      exact hlength
  · have hlt := (List.getElem?_eq_some_iff.1 hv).1
    rcases Option.or_eq_some_iff.1 hp with hi | ⟨hi, hp⟩
    · obtain ⟨hip, rfl⟩ := List.getElem?_eq_some_iff.1 hi
      have hiq : i < (splitRest replaced).1.length := hlen ▸ hip
      have hq := hfixed.get hip hiq
      refine hq v (hitems i _ v ?_ hv)
      rw [Pattern.place?, List.getElem?_eq_getElem hiq]
      rfl
    · obtain ⟨⟨p, min⟩, hp, rfl⟩ := Option.map_eq_some_iff.1 hp
      have hle := List.getElem?_eq_none_iff.1 hi
      rcases hrest with hnone | ⟨p', min', q, hp', hq, hrefines⟩
      · unfold FitsLength at hlength
        rw [hnone] at hlength
        omega
      · obtain rfl : p' = p := by simpa [hp'] using hp
        refine hrefines v (hitems i q v ?_ hv)
        rw [Pattern.place?, List.getElem?_eq_none (hlen ▸ hle), hq]
        rfl

/-- A pattern of the allowed forms is no rest. -/
theorem isRest_of_everywhere (hp : p.Everywhere VariantNode) : p.isRest = false := by
  cases p with
  | rest => exact hp.here.elim
  | _ => rfl

/-- There are candidates for every element of an array, and each may replace it. -/
theorem placed_of_elementCandidates (hs : source.Sound r) (hr : r'.Enumerates r)
    (hp : (Pattern.array elements).Everywhere VariantNode) (hm : p ∈ elements)
    (h : elementCandidates source p row r' = .ok candidates) :
    candidates ≠ [] ∧ ∀ a ∈ candidates, Placed r p a := by
  rcases elementCandidates_cases h with
    ⟨element, min, l, qs, rfl, hlist, hqs, rfl⟩ | ⟨hsingle, l, qs, hlist, hqs, rfl⟩
  · have hp : element.Everywhere VariantNode := by
      rcases Pattern.mem_splitRest hm with hfixed | ⟨_, _, he, hrest⟩
      · exact (hp.fixed hfixed).here.elim
      · cases he
        exact hp.last hrest
    refine ⟨List.append_ne_nil_of_right_ne_nil _ (List.cons_ne_nil _ _), fun a ha => ?_⟩
    rcases List.mem_append.1 ha with ha | ha
    · obtain ⟨q, hq, rfl⟩ := List.mem_map.1 ha
      exact .repeated ((hs.variants hr hp hlist).refines (mem_of_capped hqs hq))
    · obtain rfl := List.mem_singleton.1 ha
      exact .absent
  · have hp : p.Everywhere VariantNode := by
      rcases Pattern.mem_splitRest hm with hfixed | ⟨_, _, rfl, -⟩
      · exact hp.fixed hfixed
      · cases hsingle
    have hvariants := hs.variants hr hp hlist
    refine ⟨by simpa using ne_nil_of_capped hr.cap hvariants.ne_nil hqs, fun a ha => ?_⟩
    obtain ⟨q, hq, rfl⟩ := List.mem_map.1 ha
    have hq := mem_of_capped hqs hq
    exact .single hsingle (hvariants.not_rest hq) (hvariants.refines hq)

/-- A variant of an array is no rest and refines the array. -/
theorem refines_of_array {l : LazyList Pattern} (hl : r.config.mockMode = false)
    (hs : source.Sound r) (hr : r'.Enumerates r)
    (hp : (Pattern.array elements).Everywhere VariantNode)
    (h : array source elements row r' = .ok l) (hq : q ∈ l.toList) :
    q.isRest = false ∧ q.Refines (.array elements) r := by
  obtain ⟨slots, hslots, rfl⟩ := exists_of_array h
  rw [LazyList.toList_map, LazyList.toList_ofList] at hq
  obtain ⟨filling, hfilling, rfl⟩ := List.mem_map.1 hq
  have hplaced : List.Forall₂ (fun p slot => slot ≠ [] ∧ ∀ a ∈ slot, Placed r p a)
      elements slots := by
    refine ((List.forall₂_and_left _ _).2 ⟨fun p hm => hm, hslots⟩).imp
      fun p slot h => placed_of_elementCandidates hs hr hp h.1 h.2
  have hne : ∀ slot ∈ slots, slot ≠ [] := by
    intro slot hslot
    obtain ⟨p, -, hslot, -⟩ := exists_left_of_forall₂ hplaced hslot
    exact hslot
  obtain ⟨picks, hpicks, rfl⟩ := Slots.exists_of_mem_fillings hne hfilling
  exact ⟨rfl, refines_of_placed hl hp.here
    (forall₂_of_mem (hplaced.imp fun _ _ h => h.2) hpicks)⟩

/-- An array always has a variant. -/
theorem array_ne_nil {l : LazyList Pattern} (h : array source elements row r' = .ok l) :
    l ≠ .nil := by
  obtain ⟨slots, -, rfl⟩ := exists_of_array h
  simpa using Slots.fillings_ne_nil slots

end

end Variants

end DataContract
