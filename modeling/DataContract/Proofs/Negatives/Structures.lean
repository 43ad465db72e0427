import DataContract.Negatives
import DataContract.Proofs.Generation.References
import DataContract.Proofs.Generation.Structures
import DataContract.Proofs.Ranges
import DataContract.Proofs.Selections

/-!
# Corrupted structures miss the structure

A pattern misses another one if nothing that is made of it without facts is accepted by the other
(`Pattern.Misses`). Each theorem takes one kind of structure: where a part is replaced by a pattern
that misses it, the structure misses what it was. The replaced part has to be in every value that is
made, which is why a corrupted key is mandatory, a corrupted repetition is not empty, and the values
of a corrupted dictionary must not be cut short by a recursion.
-/

namespace DataContract

namespace Pattern

/-- No value that is made of the first pattern without facts is accepted by the second one. -/
def Misses (q p : Pattern) (r : Resolver) : Prop :=
  ∀ n r' v, r'.Alike r → r'.facts = [] → Generation.Made (Generation.ofBudget n) r' q v →
    ¬ p.Accepts v r

/-- The form of the pattern alone says of what kind its values are. -/
def isPlain : Pattern → Bool
  | .scalar _ => true
  | .object _ _ _ => true
  | .array _ => true
  | .list _ _ _ => true
  | .dictionary _ _ => true
  | _ => false

/-- A plain pattern is not a rest. -/
theorem isRest_of_isPlain {p : Pattern} (h : p.isPlain = true) : p.isRest = false := by
  cases p with
  | rest => cases h
  | _ => rfl

end Pattern

namespace Negatives

open Pattern (FitsObject FitsArray FitsLength PlainKeys RestLast ReferenceFree declaredKeys place?
  splitRest)
open Generation (Made Given)

variable {gen : Generator} {r r' : Resolver} {c : Choices} {p q : Pattern} {v : Value} {n i : Nat}

/-! ## Scalars -/

/-- What a scalar generates belongs to the family of the scalar. -/
theorem family_generate (s : Scalar) (c : Choices) :
    Family.ofValue (s.generate c) = s.family := by
  cases s <;> rfl

/-- A scalar misses the patterns that accept no value of its family. -/
theorem misses_scalar {s : Scalar}
    (h : ∀ v, p.Accepts v r → Family.ofValue v ≠ s.family) : (Pattern.scalar s).Misses p r := by
  intro n r' v _ _ hmade ha
  obtain ⟨m, c, hv⟩ := Generation.exists_step hmade
  cases hv
  exact h _ ha (family_generate s c)

/-- A wrong shape is a scalar of another family. -/
theorem exists_of_mem_ofFamily {f : Family} (h : p ∈ ofFamily f) :
    ∃ s, p = .scalar s ∧ s.family ≠ f := by
  cases f with
  | null | structured => cases h
  | number =>
    obtain rfl | rfl | rfl : p = .null ∨ p = .boolean ∨ p = .string := by simpa [ofFamily] using h
    all_goals exact ⟨_, rfl, nofun⟩
  | boolean =>
    obtain rfl | rfl | rfl : p = .null ∨ p = .number ∨ p = .string := by simpa [ofFamily] using h
    all_goals exact ⟨_, rfl, nofun⟩
  | string =>
    obtain rfl | rfl | rfl : p = .null ∨ p = .number ∨ p = .boolean := by simpa [ofFamily] using h
    all_goals exact ⟨_, rfl, nofun⟩

/-- The scalars that no structure accepts. -/
theorem exists_of_mem_simple (h : p ∈ [Pattern.null, .number, .boolean, .string]) :
    ∃ s, p = .scalar s ∧ s.family ≠ .structured := by
  simp only [List.mem_cons, List.not_mem_nil, or_false] at h
  rcases h with rfl | rfl | rfl | rfl <;> exact ⟨_, rfl, nofun⟩

/-- Of the plain patterns only null makes null. -/
theorem isNull_of_made (hq : q.isPlain = true) (h : Made (Generation.ofBudget n) r q .null) :
    q.isNull = true := by
  obtain ⟨m, c, hv⟩ := Generation.exists_step h
  cases q with
  | scalar s =>
    have hnull : s.generate c = .null := Outcome.ok.inj hv
    cases s with
    | null => rfl
    | _ => cases hnull
  | object =>
    obtain ⟨_, -, hv⟩ := Outcome.bind_eq_ok.1 hv
    cases hv
  | array =>
    obtain ⟨_, hv, -⟩ := Generation.fitsArray_of_array hv
    cases hv
  | list =>
    obtain ⟨_, -, hv⟩ := Outcome.map_eq_ok.1 hv
    cases hv
  | dictionary =>
    obtain ⟨_, -, hv⟩ := Outcome.map_eq_ok.1 hv
    cases hv
  | _ => cases hq

/-! ## Corrupted parts -/

section
variable {source : NegativeSource} {row : Row}

/-- In corrupted keys one of the keys has a negative of its pattern. -/
theorem exists_of_mem_corruptions {policy : NegativePolicy}
    {keys corrupted : List (String × Pattern)}
    (h : corrupted ∈ (policy.corruptions source keys row r).toList) :
    ∃ key p negative, (key, p) ∈ keys ∧
      negative ∈ (source p (row.stepDown (Key.base key)) r).toList ∧
      corrupted = NegativePolicy.corrupt keys key negative := by
  obtain ⟨⟨key, p⟩, hm, h⟩ := LazyList.mem_toList_flatMap h
  rw [LazyList.toList_ofList] at hm
  dsimp only at h
  split at h
  · cases h
  · rw [LazyList.toList_map, LazyList.toList_filter] at h
    obtain ⟨negative, hnegative, rfl⟩ := List.mem_map.1 h
    exact ⟨key, p, negative, hm, List.mem_of_mem_filter hnegative, rfl⟩

/-- In a corrupted array one of the elements is a negative of what was there. -/
theorem exists_of_mem_array {elements : List Pattern}
    (h : q ∈ (array source elements row r).toList) :
    ∃ i p negative, elements[i]? = some p ∧ negative ∈ (source p row r.inNegative).toList ∧
      q = .array (elements.set i negative) := by
  obtain ⟨⟨p, i⟩, hm, h⟩ := LazyList.mem_toList_flatMap h
  rw [LazyList.toList_ofList] at hm
  dsimp only at h
  obtain ⟨negative, hnegative, rfl⟩ := LazyList.mem_toList_map h
  exact ⟨i, p, negative, List.mk_mem_zipIdx_iff_getElem?.1 hm, hnegative, rfl⟩

/-- The negatives of a list are plain scalars and lists of negatives of its element. -/
theorem cases_of_mem_list {e : Engine} {element : Pattern} {title : Option String} {min : Nat}
    (h : q ∈ (step e source (.list element title min) row r).toList) :
    q ∈ [Pattern.null, .number, .boolean, .string] ∨
      ∃ negative ∈ (source element row r.inNegative).toList, q = .list negative none 1 := by
  rcases LazyList.mem_toList_append h with h | h
  · rw [LazyList.toList_ofList] at h
    exact .inl h
  · obtain ⟨negative, hnegative, rfl⟩ := LazyList.mem_toList_map h
    exact .inr ⟨negative, hnegative, rfl⟩

/-- The negatives of an encoding are scalars of other families than strings and encodings of
negatives that could not be taken for a text. -/
theorem cases_of_mem_inString {e : Engine} {type : Pattern}
    (h : q ∈ (step e source (.inString type) row r).toList) :
    q ∈ ofFamily .string ∨
      ∃ negative ∈ (source type row r).toList,
        (!negative.isNull && !isStringScalar negative) = true ∧ q = .inString negative := by
  rcases LazyList.mem_toList_append h with h | h
  · rw [LazyList.toList_ofList] at h
    exact .inl h
  · obtain ⟨negative, hnegative, rfl⟩ := LazyList.mem_toList_map h
    rw [LazyList.toList_filter] at hnegative
    obtain ⟨hnegative, hkept⟩ := List.mem_filter.1 hnegative
    exact .inr ⟨negative, hnegative, hkept, rfl⟩

end

/-! ## Objects -/

section
variable {keys : List (String × Pattern)} {key : String} {layout : Layout} {title : Option String}

/-- No other key than the corrupted one has its base name. -/
theorem base_notMem_remove (hk : PlainKeys keys) (hp : (key, p) ∈ declaredKeys keys) :
    Key.base key ∉ (Fields.remove (declaredKeys keys) key).map fun m => Key.base m.1 := by
  intro hmem
  obtain ⟨⟨key', p'⟩, hm, he⟩ := List.mem_map.1 hmem
  have hm' := (Fields.remove_sublist _ _).mem hm
  have hsame := List.inj_on_of_nodup_map hk.nodup hm' hp he
  obtain rfl : key' = key := congrArg Prod.fst hsame
  exact Fields.not_mem_names_remove hk.names_nodup (List.mem_map_of_mem hm)

/-- Corrupting a key swaps its field for the negative, up to the order of the fields. -/
theorem perm_corrupt (hk : PlainKeys keys) (hp : (key, p) ∈ declaredKeys keys) (q : Pattern) :
    (NegativePolicy.corrupt (declaredKeys keys) key q).Perm
      ((Key.base key, q) :: Fields.remove (declaredKeys keys) key) := by
  refine Fields.perm_set (fun hmem => base_notMem_remove hk hp ?_) q
  obtain ⟨⟨key', p'⟩, hm, rfl⟩ := List.mem_map.1 hmem
  have hbase := (hk.mandatory _ hp).1
  exact List.mem_map.2 ⟨_, hm, Key.base_of_mandatory hbase⟩

/-- Corrupted keys are told apart by their base names as the declared ones are. -/
theorem nodup_corrupt (hk : PlainKeys keys) (hp : (key, p) ∈ declaredKeys keys) (q : Pattern) :
    ((declaredKeys (NegativePolicy.corrupt (declaredKeys keys) key q)).map
      fun m => Key.base m.1).Nodup := by
  have hsub : (declaredKeys (NegativePolicy.corrupt (declaredKeys keys) key q)).Sublist
      (NegativePolicy.corrupt (declaredKeys keys) key q) := List.filter_sublist
  refine List.Nodup.sublist (hsub.map _) (((perm_corrupt hk hp q).map _).nodup_iff.2 ?_)
  rw [List.map_cons, Key.base_of_mandatory (hk.mandatory _ hp).1]
  exact List.nodup_cons.2 ⟨base_notMem_remove hk hp,
    hk.nodup.sublist ((Fields.remove_sublist _ _).map _)⟩

/-- The corrupted object declares the negative under the plain name of its key. -/
theorem mem_corrupt (hk : PlainKeys keys) (hp : (key, p) ∈ declaredKeys keys) (q : Pattern) :
    (Key.base key, q) ∈ declaredKeys (NegativePolicy.corrupt (declaredKeys keys) key q) :=
  Pattern.mem_declaredKeys.2
    ⟨(perm_corrupt hk hp q).mem_iff.2 List.mem_cons_self, (hk.mandatory _ hp).2⟩

/-- An object with a corrupted key misses the object: the corrupted value is always there. -/
theorem misses_object (hl : r.config.mockMode = false) (hk : PlainKeys keys)
    (hp : (key, p) ∈ declaredKeys keys) (hq : q.Misses p r) :
    (Pattern.object layout (NegativePolicy.corrupt (declaredKeys keys) key q) title).Misses
      (.object layout keys title) r := by
  intro n r' v hr hf hmade ha
  obtain ⟨m, c, hv⟩ := Generation.exists_step hmade
  obtain ⟨fields, rfl, hfits⟩ :=
    Generation.fitsObject_of_object (nodup_corrupt hk hp q) hv
  obtain ⟨fields', he, hfits'⟩ := ha.fits hl
  cases he
  have hmandatory := (hk.mandatory _ hp).1
  have hmem := mem_corrupt hk hp q
  have hhas := Engine.missingKeys_eq_nil_iff.1 hfits.present _ _ hmem hmandatory
  obtain ⟨w, hw⟩ := Option.isSome_iff_exists.1 hhas
  have hmade := hfits.values (Key.base key, q, w)
    (Engine.mem_presentKeys.2 ⟨_, hmem, Key.base_of_mandatory hmandatory, hw⟩)
  rw [Key.base_of_mandatory hmandatory] at hw
  have haccepts := hfits'.values (Key.base key, p, w)
    (Engine.mem_presentKeys.2 ⟨key, hp, rfl, hw⟩)
  exact hq m r' w hr hf (hmade.made hf) haccepts

end

/-! ## Arrays and lists -/

section
variable {elements replaced : List Pattern}

/-- An array misses another one if it always has an item whose pattern misses that of its place. -/
theorem misses_array (hl : r.config.mockMode = false)
    (hlen : ∀ length, FitsLength replaced length → i < length)
    (hqi : place? replaced i = some q) (hpi : place? elements i = some p) (hq : q.Misses p r) :
    (Pattern.array replaced).Misses (.array elements) r := by
  intro n r' v hr hf hmade ha
  obtain ⟨m, c, hv⟩ := Generation.exists_step hmade
  obtain ⟨items, rfl, hlength, hitems⟩ := Generation.fitsArray_of_array hv
  obtain ⟨items', he, -, hitems'⟩ := ha.fits hl
  cases he
  have hi := List.getElem?_eq_getElem (hlen _ hlength)
  exact hq m r' _ hr hf (hitems i q _ hqi hi) (hitems' i p _ hpi hi)

/-- A fixed element stands before the repetition. -/
theorem splitRest_set (hlast : RestLast elements) (hi : elements[i]? = some p)
    (hp : p.isRest = false) (hq : q.isRest = false) :
    (splitRest elements).1[i]? = some p ∧
      splitRest (elements.set i q) = ((splitRest elements).1.set i q, (splitRest elements).2) := by
  induction elements generalizing i with
  | nil => cases hi
  | cons first elements ih =>
    cases hfirst : first.isRest with
    | true =>
      cases first with
      | rest =>
        obtain rfl : elements = [] := hlast
        cases i with
        | zero =>
          cases hi
          cases hp
        | succ i => cases hi
      | _ => cases hfirst
    | false =>
      rw [Pattern.splitRest_cons hfirst]
      cases i with
      | zero => exact ⟨hi, Pattern.splitRest_cons hq elements⟩
      | succ i =>
        obtain ⟨hfixed, hset⟩ := ih ((Pattern.restLast_cons hfirst).1 hlast) hi
        refine ⟨hfixed, ?_⟩
        rw [List.set_cons_succ, Pattern.splitRest_cons hfirst, hset]
        rfl

/-- An array with one fixed element replaced by a pattern that misses it misses the array. -/
theorem misses_set_fixed (hl : r.config.mockMode = false) (hlast : RestLast elements)
    (hi : elements[i]? = some p) (hp : p.isRest = false) (hq : q.isRest = false)
    (h : q.Misses p r) : (Pattern.array (elements.set i q)).Misses (.array elements) r := by
  obtain ⟨hfixed, hset⟩ := splitRest_set hlast hi hp hq
  have hlt := (List.getElem?_eq_some_iff.1 hfixed).1
  refine misses_array hl (i := i) (fun length hlength => ?_) ?_ ?_ h
  · unfold FitsLength at hlength
    rw [hset] at hlength
    dsimp only at hlength
    rw [List.length_set] at hlength
    split at hlength <;> omega
  · rw [place?, hset, List.getElem?_set_self hlt]
    rfl
  · rw [place?, hfixed]
    rfl

/-- The repetition at the end stands behind the fixed elements. -/
theorem splitRest_set_rest {min : Nat} (hlast : RestLast elements)
    (hi : elements[i]? = some (.rest p min)) (q : Pattern) (min' : Nat) :
    i = (splitRest elements).1.length ∧ (splitRest elements).2 = some (p, min) ∧
      splitRest (elements.set i (.rest q min')) = ((splitRest elements).1, some (q, min')) := by
  induction elements generalizing i with
  | nil => cases hi
  | cons first elements ih =>
    cases hfirst : first.isRest with
    | true =>
      cases first with
      | rest =>
        obtain rfl : elements = [] := hlast
        cases i with
        | zero =>
          cases hi
          exact ⟨rfl, rfl, rfl⟩
        | succ i => cases hi
      | _ => cases hfirst
    | false =>
      rw [Pattern.splitRest_cons hfirst]
      cases i with
      | zero =>
        cases hi
        cases hfirst
      | succ i =>
        obtain ⟨hlen, hrest, hset⟩ := ih ((Pattern.restLast_cons hfirst).1 hlast) hi
        refine ⟨congrArg (· + 1) hlen, hrest, ?_⟩
        rw [List.set_cons_succ, Pattern.splitRest_cons hfirst, hset]

/-- An array whose rest must give one item that misses the rest misses the array. -/
theorem misses_set_rest {min : Nat} (hl : r.config.mockMode = false) (hlast : RestLast elements)
    (hi : elements[i]? = some (.rest p min)) (h : q.Misses p r) :
    (Pattern.array (elements.set i (.rest q 1))).Misses (.array elements) r := by
  obtain ⟨hlen, hrest, hset⟩ := splitRest_set_rest hlast hi q 1
  have hnone : (splitRest elements).1[i]? = none := List.getElem?_eq_none_iff.2 hlen.ge
  refine misses_array hl (i := i) (fun length hlength => ?_) ?_ ?_ h
  · unfold FitsLength at hlength
    rw [hset] at hlength
    dsimp only at hlength
    omega
  · rw [place?, hset]
    dsimp only
    rw [hnone]
    rfl
  · rw [place?, hrest, hnone]
    rfl

/-- A list with a corrupted element is not empty. -/
theorem misses_list {title title' : Option String} {min : Nat} (hl : r.config.mockMode = false)
    (h : q.Misses p r) : (Pattern.list q title' 1).Misses (.list p title min) r := by
  intro n r' v hr hf hmade ha
  obtain ⟨m, c, hv⟩ := Generation.exists_step hmade
  obtain ⟨items, hitems, rfl⟩ := Outcome.map_eq_ok.1 hv
  obtain ⟨items', he, -, hitems'⟩ := ha.fits hl
  cases he
  obtain ⟨hlen, hmade⟩ := Generation.repeated_spec hitems
  have hmem := List.getElem_mem hlen
  exact h m r' _ hr hf (hmade _ hmem) (hitems' _ hmem)

end

/-! ## Dictionaries -/

/-- Where the values end in no recursion there are as many entries as were asked for. -/
theorem entries_ne_nil {key value : Pattern} {left done : Nat} {pairs : List (String × Value)}
    (hv : ∀ c, (gen value r c).NoRecursion)
    (h : Generation.entries gen key value r c (left + 1) done = .ok pairs) : pairs ≠ [] := by
  rw [Generation.entries] at h
  split at h
  · cases h
  · cases h
  · split at h
    · obtain ⟨rest, -, rfl⟩ := Outcome.map_eq_ok.1 h
      exact List.cons_ne_nil _ _
    · next name he => exact absurd he (hv _ name)
    · cases h
    · cases h

/-- A dictionary whose corrupted values have no references is not empty. -/
theorem misses_dictionary {key value : Pattern} (hl : r.config.mockMode = false)
    (hq : q.Everywhere ReferenceFree) (h : q.Misses value r) :
    (Pattern.dictionary key q).Misses (.dictionary key value) r := by
  intro n r' v hr hf hmade ha
  obtain ⟨m, c, hv⟩ := Generation.exists_step hmade
  obtain ⟨pairs, hpairs, rfl⟩ := Outcome.map_eq_ok.1 hv
  obtain ⟨fields, he, hfields⟩ := ha.fits hl
  cases he
  obtain ⟨count, hcount⟩ := Nat.exists_eq_add_one.2 (c.between_bounds (by decide : 1 ≤ 3)).1
  rw [hcount] at hpairs
  have hne := entries_ne_nil (fun c => Generation.noRecursion_ofBudget m hq) hpairs
  obtain ⟨⟨name, w⟩, rest, rfl⟩ := List.exists_cons_of_ne_nil hne
  have hname : name ∈ Fields.names (Fields.ofPairs ((name, w) :: rest)) :=
    Fields.mem_names_ofPairs.2 List.mem_cons_self
  obtain ⟨entry, hentry, -⟩ := List.mem_map.1 hname
  have hmade := (Generation.entries_spec hpairs entry (Fields.mem_of_mem_ofPairs hentry)).2
  exact h m r' _ hr hf hmade (hfields entry hentry).2

end Negatives

end DataContract
