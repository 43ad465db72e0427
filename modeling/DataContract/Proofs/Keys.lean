import DataContract.Engine
import Mathlib.Data.List.Forall2
import Mathlib.Data.List.Induction
import Mathlib.Data.List.Nodup

/-!
# Keys

What is under a key of an association list, what `Fields.set`, `Fields.remove` and `Fields.ofPairs`
do to it, and how the names of optional keys are told from those of mandatory ones.
-/

namespace DataContract

namespace Fields

variable {α β : Type} {fields : Fields α} {pairs : List (String × α)} {name other : String}
  {v : α}

instance (fields : Fields α) : Decidable fields.Ordered :=
  inferInstanceAs (Decidable (fields.names.Pairwise (· < ·)))

/-- A lookup tries the first field before the others. -/
theorem get?_cons (key : String) (a : α) (rest : Fields α) (name : String) :
    get? ((key, a) :: rest) name = if name = key then some a else get? rest name := by
  rw [get?]
  by_cases h : key = name
  · rw [if_pos h, if_pos h.symm]
  · rw [if_neg h, if_neg (Ne.symm h)]

/-- What a lookup finds is a field. -/
theorem mem_of_get? (h : fields.get? name = some v) : (name, v) ∈ fields := by
  induction fields with
  | nil => cases h
  | cons pair rest ih =>
    obtain ⟨k, w⟩ := pair
    rw [get?] at h
    split at h
    · next hk =>
      cases h
      exact hk ▸ List.mem_cons_self
    · exact List.mem_cons_of_mem _ (ih h)

/-- A name is there exactly if it is among the names. -/
theorem has_iff_mem_names : fields.has name = true ↔ name ∈ fields.names := by
  induction fields with
  | nil => simp [has, names]
  | cons pair rest ih =>
    obtain ⟨k, w⟩ := pair
    simp only [has, get?, names, List.map_cons, List.mem_cons] at ih ⊢
    split
    · next hk => simp [hk]
    · next hk => rw [ih]; simp [Ne.symm hk]

/-- A lookup finds nothing exactly if the name is not there. -/
theorem get?_eq_none : fields.get? name = none ↔ name ∉ fields.names := by
  rw [← has_iff_mem_names, has]
  simp

/-- Under distinct keys every member is what stands under its key. -/
theorem get?_of_mem (hd : fields.names.Nodup) (h : (name, v) ∈ fields) :
    fields.get? name = some v := by
  induction fields with
  | nil => cases h
  | cons pair rest ih =>
    obtain ⟨k, w⟩ := pair
    obtain ⟨hk, hd⟩ := List.nodup_cons.1 hd
    rw [get?]
    cases h with
    | head => exact if_pos rfl
    | tail _ h =>
      have hne : k ≠ name := by
        rintro rfl
        exact hk (List.mem_map.2 ⟨_, h, rfl⟩)
      rw [if_neg hne]
      exact ih hd h

/-- Where no name comes twice a lookup finds exactly the fields. -/
theorem get?_eq_some_iff (hd : fields.names.Nodup) :
    fields.get? name = some v ↔ (name, v) ∈ fields :=
  ⟨mem_of_get?, get?_of_mem hd⟩

/-- Ordered keys are distinct. -/
theorem Ordered.nodup (h : fields.Ordered) : fields.names.Nodup := by
  refine List.Pairwise.imp ?_ h
  rintro a _ hlt rfl
  exact String.lt_irrefl a hlt

/-- Setting a field adds its name and no other one. -/
theorem mem_names_set :
    other ∈ (fields.set name v).names ↔ other = name ∨ other ∈ fields.names := by
  rw [← has_iff_mem_names, ← has_iff_mem_names, has, has]
  by_cases h : name = other
  · subst h
    simp
  · rw [get?_set_of_ne fields v h]
    simp [Ne.symm h]

/-- Setting a field keeps the names in order. -/
theorem ordered_set (h : fields.Ordered) (name : String) (v : α) :
    (fields.set name v).Ordered := by
  induction fields with
  | nil => simp [set, Ordered, names]
  | cons pair rest ih =>
    obtain ⟨k, w⟩ := pair
    obtain ⟨hk, hrest⟩ := List.pairwise_cons.1 h
    rw [set]
    split
    · next he => exact he ▸ h
    · next hne =>
      split
      · next hlt =>
        refine List.pairwise_cons.2 ⟨fun other ho => ?_, h⟩
        cases ho with
        | head => exact hlt
        | tail _ ho => exact String.lt_trans hlt (hk _ ho)
      · next hnlt =>
        refine List.pairwise_cons.2 ⟨fun other ho => ?_, ih hrest⟩
        rcases mem_names_set.1 ho with rfl | ho
        · by_contra hlt
          exact hne (String.le_antisymm (String.not_lt.1 hnlt) (String.not_lt.1 hlt))
        · exact hk _ ho

/-- A new member stands somewhere among the others. -/
theorem perm_set (h : name ∉ fields.names) (v : α) :
    (fields.set name v).Perm ((name, v) :: fields) := by
  induction fields with
  | nil => exact .refl _
  | cons pair rest ih =>
    obtain ⟨k, w⟩ := pair
    have hk : k ≠ name := fun he => h (he ▸ List.mem_cons_self)
    rw [set, if_neg hk]
    split
    · exact .refl _
    · exact ((ih fun hn => h (List.mem_cons_of_mem _ hn)).cons _).trans (.swap _ _ _)

/-- Removing a name leaves the other fields as they are. -/
theorem remove_sublist (fields : Fields α) (name : String) :
    (fields.remove name).Sublist fields := by
  induction fields with
  | nil => exact .slnil
  | cons pair rest ih =>
    obtain ⟨k, w⟩ := pair
    rw [remove]
    split
    · exact List.sublist_cons_self _ _
    · exact ih.cons_cons _

/-- What is taken out of distinct keys is not there any more. -/
theorem not_mem_names_remove (hd : fields.names.Nodup) :
    name ∉ (fields.remove name).names := by
  induction fields with
  | nil => exact List.not_mem_nil
  | cons pair rest ih =>
    obtain ⟨k, w⟩ := pair
    obtain ⟨hk, hd⟩ := List.nodup_cons.1 hd
    rw [remove]
    split
    · next he => exact he ▸ hk
    · next hne =>
      intro hn
      rcases List.mem_cons.1 hn with he | hn
      · exact hne he.symm
      · exact ih hd hn

/-- Of distinct keys only the given one is taken out. -/
theorem mem_remove_iff (hd : fields.names.Nodup) {m : String × α} :
    m ∈ fields.remove name ↔ m ∈ fields ∧ m.1 ≠ name := by
  induction fields with
  | nil => simp [remove]
  | cons pair rest ih =>
    obtain ⟨k, w⟩ := pair
    obtain ⟨hk, hd⟩ := List.nodup_cons.1 hd
    rw [remove]
    split
    · next he =>
      subst he
      have hne : ∀ m ∈ rest, m.1 ≠ k := by
        rintro m hm rfl
        exact hk (List.mem_map.2 ⟨m, hm, rfl⟩)
      rw [List.mem_cons]
      constructor
      · exact fun hm => ⟨.inr hm, hne m hm⟩
      · rintro ⟨rfl | hm, hmk⟩
        · exact absurd rfl hmk
        · exact hm
    · next hne =>
      rw [List.mem_cons, List.mem_cons, ih hd]
      constructor
      · rintro (rfl | ⟨hm, hmk⟩)
        · exact ⟨.inl rfl, hne⟩
        · exact ⟨.inr hm, hmk⟩
      · rintro ⟨rfl | hm, hmk⟩
        · exact .inl rfl
        · exact .inr ⟨hm, hmk⟩

/-- Of fields that are set one after another a lookup finds those before the ones that were
there. -/
theorem get?_foldl_set (fields : Fields α) (hd : (pairs.map (·.1)).Nodup) :
    (pairs.foldl (fun fields pair => set fields pair.1 pair.2) fields).get? name =
      (get? pairs name).or (fields.get? name) := by
  induction pairs generalizing fields with
  | nil => rfl
  | cons pair rest ih =>
    obtain ⟨k, w⟩ := pair
    obtain ⟨hk, hd⟩ := List.nodup_cons.1 hd
    rw [List.foldl_cons, ih _ hd, get?]
    split
    · next he =>
      subst he
      rw [get?_eq_none.2 hk, get?_set_self]
      rfl
    · next hne => rw [get?_set_of_ne _ _ hne]

/-- Pairs under distinct keys are found under their keys. -/
theorem get?_ofPairs (hd : (pairs.map (·.1)).Nodup) :
    (ofPairs pairs).get? name = get? pairs name := by
  rw [ofPairs, get?_foldl_set _ hd, get?_nil, Option.or_none]

/-- Of pairs with the same name the last one is found. -/
theorem get?_ofPairs_eq_find? (pairs : List (String × α)) (name : String) :
    (ofPairs pairs).get? name = (pairs.reverse.find? (·.1 = name)).map (·.2) := by
  induction pairs using List.reverseRecOn with
  | nil => rfl
  | append_singleton pairs pair ih =>
    rw [ofPairs, List.foldl_concat, ← ofPairs, List.reverse_concat, List.find?_cons]
    by_cases h : pair.1 = name
    · simp [h]
    · rw [get?_set_of_ne _ _ h, ih]
      simp [h]

/-- Fields that are set one after another add their names. -/
theorem mem_names_foldl_set (fields : Fields α) :
    name ∈ (pairs.foldl (fun fields pair => set fields pair.1 pair.2) fields).names ↔
      name ∈ pairs.map (·.1) ∨ name ∈ fields.names := by
  induction pairs generalizing fields with
  | nil => simp
  | cons pair rest ih =>
    rw [List.foldl_cons, ih, mem_names_set, List.map_cons, List.mem_cons]
    tauto

/-- The names of fields made from pairs are those of the pairs. -/
theorem mem_names_ofPairs : name ∈ (ofPairs pairs).names ↔ name ∈ pairs.map (·.1) := by
  rw [ofPairs, mem_names_foldl_set]
  simp [names]

/-- Fields made from pairs are in the order of their names. -/
theorem ordered_ofPairs (pairs : List (String × α)) : (ofPairs pairs).Ordered := by
  suffices h : ∀ fields : Fields α, fields.Ordered →
      Ordered (pairs.foldl (fun fields pair => set fields pair.1 pair.2) fields) from
    h [] List.Pairwise.nil
  induction pairs with
  | nil => exact fun _ h => h
  | cons pair rest ih => exact fun fields h => ih _ (ordered_set h _ _)

/-- A member after a `set` is the one that was put there or one from before. -/
theorem mem_of_mem_set {fields : Fields α} {pair : String × α} {m : String × α}
    (h : m ∈ fields.set pair.1 pair.2) : m = pair ∨ m ∈ fields := by
  induction fields with
  | nil => exact .inl (List.mem_singleton.1 h)
  | cons head rest ih =>
    rw [set] at h
    split at h
    · rcases List.mem_cons.1 h with h | h
      · exact .inl h
      · exact .inr (List.mem_cons_of_mem _ h)
    · split at h
      · rcases List.mem_cons.1 h with h | h
        · exact .inl h
        · exact .inr h
      · rcases List.mem_cons.1 h with h | h
        · exact .inr (h ▸ List.mem_cons_self)
        · exact (ih h).imp_right (List.mem_cons_of_mem _)

/-- A member that was put together from pairs is one of the pairs. -/
theorem mem_of_mem_ofPairs (h : (name, v) ∈ ofPairs pairs) : (name, v) ∈ pairs := by
  suffices hf : ∀ fields : Fields α,
      (name, v) ∈ pairs.foldl (fun fields pair => set fields pair.1 pair.2) fields →
        (name, v) ∈ pairs ∨ (name, v) ∈ fields by
    rcases hf [] h with h | h
    · exact h
    · cases h
  clear h
  induction pairs with
  | nil => exact fun _ h => .inr h
  | cons pair rest ih =>
    intro fields h
    rcases ih _ h with h | h
    · exact .inl (List.mem_cons_of_mem _ h)
    · rcases mem_of_mem_set h with h | h
      · exact .inl (h ▸ List.mem_cons_self)
      · exact .inr h

/-- Of pairs under distinct keys none is lost. -/
theorem mem_ofPairs (hd : (pairs.map (·.1)).Nodup) :
    (name, v) ∈ ofPairs pairs ↔ (name, v) ∈ pairs := by
  rw [← get?_eq_some_iff (ordered_ofPairs pairs).nodup, get?_ofPairs hd, get?_eq_some_iff hd]

/-- The names of the members that are left of a list are in the order of the list. -/
theorem sublist_names_filterMap {γ : Type} (l : List γ) (g : γ → String) (f : γ → Option α) :
    ((l.filterMap fun a => (f a).map (g a, ·)).map (·.1)).Sublist (l.map g) := by
  induction l with
  | nil => exact .slnil
  | cons a l ih =>
    rw [List.filterMap_cons, List.map_cons]
    cases f a with
    | none => exact ih.cons _
    | some b => exact ih.cons_cons _

/-- Members that are left of a list with distinct names are found under their names. -/
theorem get?_ofPairs_filterMap {γ : Type} {l : List γ} {g : γ → String} {f : γ → Option α}
    (hd : (l.map g).Nodup) :
    (ofPairs (l.filterMap fun a => (f a).map (g a, ·))).get? name = some v ↔
      ∃ a ∈ l, g a = name ∧ f a = some v := by
  have hnodup := hd.sublist (sublist_names_filterMap l g f)
  rw [get?_ofPairs hnodup, get?_eq_some_iff hnodup, List.mem_filterMap]
  simp only [Option.map_eq_some_iff, Prod.mk.injEq]
  constructor
  · rintro ⟨a, ha, w, hw, rfl, rfl⟩
    exact ⟨a, ha, rfl, hw⟩
  · rintro ⟨a, ha, rfl, hw⟩
    exact ⟨a, ha, v, hw, rfl, rfl⟩

/-- A list in the order of a key is determined by its elements. -/
theorem eq_of_mem_iff {γ : Type} {f : γ → String} {l l' : List γ} (hl : (l.map f).Pairwise (· < ·))
    (hl' : (l'.map f).Pairwise (· < ·)) (h : ∀ a, a ∈ l ↔ a ∈ l') : l = l' := by
  have hnodup {l : List γ} (hl : (l.map f).Pairwise (· < ·)) : l.Nodup :=
    .of_map f (hl.imp String.ne_of_lt)
  refine List.Perm.eq_of_pairwise ?_ (List.pairwise_map.1 hl) (List.pairwise_map.1 hl')
    ((List.perm_ext_iff_of_nodup (hnodup hl) (hnodup hl')).2 h)
  exact fun a b _ _ hab hba => absurd hba (String.lt_asymm hab)

/-- Members in the order of their keys stay as they are when they are put together. -/
theorem ofPairs_of_ordered (h : fields.Ordered) : ofPairs fields = fields :=
  eq_of_mem_iff (ordered_ofPairs fields) h fun _ => mem_ofPairs h.nodup

/-- Under the same distinct keys the values in the same places are those under the same key. -/
theorem forall₂_iff_get? {R : α → β → Prop} {as : Fields α} {bs : Fields β}
    (hnames : as.names = bs.names) (hd : as.names.Nodup) :
    List.Forall₂ (fun a b => a.1 = b.1 ∧ R a.2 b.2) as bs ↔
      ∀ m ∈ as, ∀ b, bs.get? m.1 = some b → R m.2 b := by
  induction as generalizing bs with
  | nil =>
    cases bs with
    | nil => exact iff_of_true .nil nofun
    | cons b bs => cases hnames
  | cons a as ih =>
    cases bs with
    | nil => cases hnames
    | cons b bs =>
      obtain ⟨hname, hnames⟩ := List.cons_eq_cons.1 hnames
      obtain ⟨ha, hd⟩ := List.nodup_cons.1 hd
      have hname : a.1 = b.1 := hname
      rw [List.forall₂_cons, ih hnames hd, List.forall_mem_cons]
      refine and_congr ?_ (forall₂_congr fun m hm => ?_)
      · rw [get?_cons, if_pos hname]
        simp [hname]
      · have hmem : m.1 ∈ Fields.names as := List.mem_map_of_mem hm
        have hne : m.1 ≠ b.1 := by
          intro he
          rw [he, ← hname] at hmem
          exact ha hmem
        rw [get?_cons, if_neg hne]

end Fields

/-! ## Optional keys -/

namespace Key

variable {key name : String}

/-- A key is optional exactly if it ends in a question mark. -/
theorem isOptional_iff : isOptional key = true ↔ key.toList.getLast? = some '?' := by
  have hne : ellipsis.toList.getLast? ≠ some '?' := by decide
  unfold isOptional
  simp only [Bool.and_eq_true, decide_eq_true_eq, bne_iff_ne, ne_eq]
  exact ⟨And.left, fun h => ⟨h, fun he => hne (he ▸ h)⟩⟩

@[simp] theorem isOptional_optional (name : String) : isOptional (optional name) = true := by
  rw [isOptional_iff, optional, String.toList_append]
  simp

/-- A mandatory key is its own base name. -/
theorem base_of_mandatory (h : isOptional key = false) : base key = key := by
  simp [base, h]

@[simp] theorem base_optional (name : String) : base (optional name) = name := by
  rw [base, if_pos (isOptional_optional name), optional, String.toList_append]
  simp

/-- An optional key is its base name with the mark. -/
theorem optional_base (h : isOptional key = true) : optional (base key) = key := by
  have hlast := isOptional_iff.1 h
  rw [base, if_pos h, optional]
  apply String.toList_injective
  rw [String.toList_append, String.toList_ofList]
  exact List.dropLast_append_getLast? _ hlast

/-- A key is its base name, if it is mandatory, or its base name with the mark. -/
theorem eq_base_or_optional (key : String) : key = base key ∨ key = optional (base key) := by
  cases h : isOptional key with
  | false => exact .inl (base_of_mandatory h).symm
  | true => exact .inr (optional_base h).symm

/-- The key is the name of a mandatory key and of nothing else. -/
def IsPlain (key : String) : Prop :=
  isOptional key = false ∧ key ≠ ellipsis

instance (key : String) : Decidable (IsPlain key) :=
  inferInstanceAs (Decidable (_ ∧ _))

end Key

namespace Pattern

variable {keys : List (String × Pattern)} {key name : String} {p : Pattern}

/-- Declared keys are all but the one that admits undeclared keys. -/
theorem mem_declaredKeys : (key, p) ∈ declaredKeys keys ↔ (key, p) ∈ keys ∧ key ≠ ellipsis := by
  simp [declaredKeys]

/-- An object is open exactly if it has the key that admits undeclared keys. -/
theorem isOpen_iff : isOpen keys = true ↔ ellipsis ∈ Fields.names keys :=
  Fields.has_iff_mem_names

/-- All keys of a closed object are declared. -/
theorem declaredKeys_of_closed (h : isOpen keys = false) : declaredKeys keys = keys := by
  refine List.filter_eq_self.2 fun m hm => bne_iff_ne.2 ?_
  intro he
  exact Bool.eq_false_iff.1 h (isOpen_iff.2 (he ▸ List.mem_map_of_mem hm))

/-- The declared keys are told apart by their base names, which are mandatory keys themselves. -/
structure PlainKeys (keys : List (String × Pattern)) : Prop where
  nodup : ((declaredKeys keys).map fun m => Key.base m.1).Nodup
  mandatory : ∀ m ∈ declaredKeys keys,
    Key.isOptional (Key.base m.1) = false ∧ Key.base m.1 ≠ ellipsis

/-- Keys that are told apart by their base names are told apart. -/
theorem PlainKeys.names_nodup (h : PlainKeys keys) : (Fields.names (declaredKeys keys)).Nodup := by
  refine List.Nodup.of_map Key.base ?_
  rw [Fields.names, List.map_map]
  exact h.nodup

/-- Keys are plain if their base names differ and carry no mark. -/
theorem plainKeys_of_forall (hnodup : ((Fields.names keys).map Key.base).Nodup)
    (hmandatory : ∀ name ∈ Fields.names keys,
      Key.isOptional (Key.base name) = false ∧ Key.base name ≠ ellipsis) : PlainKeys keys := by
  have hsub : (declaredKeys keys).Sublist keys := List.filter_sublist
  refine ⟨?_, fun m hm => hmandatory _ (List.mem_map_of_mem (hsub.mem hm))⟩
  rw [Fields.names, List.map_map] at hnodup
  exact hnodup.sublist (hsub.map _)

/-- A key with a given base name is that name or that name with the mark, and its pattern is what
stands under it. -/
theorem keyNamed?_eq_some (h : keyNamed? keys name = some (key, p)) :
    Fields.get? keys key = some p ∧ (key = name ∨ key = Key.optional name) := by
  unfold keyNamed? at h
  split at h
  · next hg =>
    cases h
    exact ⟨hg, .inl rfl⟩
  · obtain ⟨q, hq, he⟩ := Option.map_eq_some_iff.1 h
    cases he
    exact ⟨hq, .inr rfl⟩

/-- Every key that a closed pattern finds is a declared one. -/
theorem mem_declaredKeys_of_keyNamed? (hc : isOpen keys = false)
    (h : keyNamed? keys name = some (key, p)) : (key, p) ∈ declaredKeys keys := by
  have hmem := Fields.mem_of_get? (keyNamed?_eq_some h).1
  refine mem_declaredKeys.2 ⟨hmem, ?_⟩
  rintro rfl
  exact Bool.eq_false_iff.1 hc (isOpen_iff.2 (List.mem_map.2 ⟨_, hmem, rfl⟩))

/-- No key has the base name exactly if neither the mandatory nor the optional one is there. -/
theorem keyNamed?_eq_none :
    keyNamed? keys name = none ↔
      name ∉ Fields.names keys ∧ Key.optional name ∉ Fields.names keys := by
  rw [← Fields.get?_eq_none, ← Fields.get?_eq_none, keyNamed?]
  cases Fields.get? keys name <;> simp

/-- A declared key is found under its base name. -/
theorem keyNamed?_base_ne_none (h : (key, p) ∈ keys) : keyNamed? keys (Key.base key) ≠ none := by
  have hmem : key ∈ Fields.names keys := List.mem_map_of_mem h
  intro hnone
  obtain ⟨hb, ho⟩ := keyNamed?_eq_none.1 hnone
  rcases Key.eq_base_or_optional key with he | he
  · exact hb (he ▸ hmem)
  · exact ho (he ▸ hmem)

end Pattern

end DataContract
