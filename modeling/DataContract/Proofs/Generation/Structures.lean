import DataContract.Generation
import DataContract.Proofs.Acceptance
import DataContract.Proofs.Outcomes

/-!
# Generated structures have the shape of their pattern

Each theorem takes one kind of structure: what is put together from the values of the parts has the
shape of the pattern, and each part is made by the generator (`Generation.Made`) or is a fact that
was matched before (`Generation.Given`). Nothing is asked of the generator of the parts.
-/

namespace DataContract

namespace Generation

open Pattern (FitsObject FitsArray FitsLength place? splitRest declaredKeys)

/-- The generator makes the value of the pattern, for some outcome of the choices. -/
def Made (gen : Generator) (r : Resolver) (p : Pattern) (v : Value) : Prop :=
  ∃ c, gen p r c = .ok v

/-- What is made on a budget is made by one step of the generator. -/
theorem exists_step {n : Nat} {r : Resolver} {p : Pattern} {v : Value}
    (h : Made (ofBudget n) r p v) : ∃ m c, step (Engine.ofBudget m) (ofBudget m) p r c = .ok v := by
  obtain ⟨c, h⟩ := h
  cases n with
  | zero => cases h
  | succ m => exact ⟨m, c, h⟩

/-- The value is an accepted fact, or the generator makes it. -/
def Given (e : Engine) (gen : Generator) (r : Resolver) (p : Pattern) (v : Value) : Prop :=
  (∃ name, acceptedFact? e name p r = .ok (some v)) ∨ Made gen r p v

variable {e : Engine} {gen : Generator} {r : Resolver} {c : Choices} {p : Pattern} {v : Value}
  {n : Nat}

/-! ## Facts -/

/-- A fact that is taken is accepted. -/
theorem accepts_of_acceptedFact? {name : String}
    (h : acceptedFact? (Engine.ofBudget n) name p r = .ok (some v)) : p.Accepts v r := by
  unfold acceptedFact? at h
  split at h
  · cases h
  · split at h
    · cases h
    · next m hm =>
      split at h
      · next hs =>
        cases h
        exact ⟨n, hm ▸ succeeds_some.2 hs⟩
      · cases h

/-- Where there are no facts the generator makes what is given. -/
theorem Given.made (hf : r.facts = []) (h : Given e gen r p v) : Made gen r p v := by
  rcases h with ⟨name, hfact⟩ | h
  · unfold acceptedFact? Resolver.fact? at hfact
    rw [hf] at hfact
    cases hfact
  · exact h

/-! ## Objects -/

/-- What a declared key gets is given. -/
theorem given_of_member {key : String} (h : member e gen key p r c = .ok (some v)) :
    Given e gen r p v := by
  obtain ⟨fact, hfact, h⟩ := Outcome.bind_eq_ok.1 h
  split at h
  · cases h
    exact .inl ⟨_, hfact⟩
  · split at h
    · obtain ⟨w, hw, h⟩ := Outcome.bind_eq_ok.1 h
      cases h
      exact .inr ⟨_, hw⟩
    · split at h
      · cases h
      · split at h
        · next hw =>
          cases h
          exact .inr ⟨_, hw⟩
        · cases h
        · cases h
        · cases h

/-- A mandatory key gets something. -/
theorem exists_of_member_mandatory {key : String} {value : Option Value}
    (hk : Key.isOptional key = false) (h : member e gen key p r c = .ok value) :
    ∃ v, value = some v := by
  obtain ⟨fact, -, h⟩ := Outcome.bind_eq_ok.1 h
  split at h
  · cases h
    exact ⟨_, rfl⟩
  · rw [if_pos (by simp [hk])] at h
    obtain ⟨w, -, h⟩ := Outcome.bind_eq_ok.1 h
    cases h
    exact ⟨_, rfl⟩

section
variable {keys : List (String × Pattern)} {values : List (String × Option Value)}
  {key name : String} {value : Option Value}

/-- What a declared key of an object gets, under its base name. -/
def memberAt (e : Engine) (gen : Generator) (r : Resolver) (c : Choices)
    (a : (String × Pattern) × Nat) : Outcome (String × Option Value) := do
  return (Key.base a.1.1, ← member e gen a.1.1 a.1.2 r (c.part a.2))

/-- What the declared keys of an object get. -/
def members (e : Engine) (gen : Generator) (keys : List (String × Pattern)) (r : Resolver)
    (c : Choices) : Outcome (List (String × Option Value)) :=
  Outcome.traverse (memberAt e gen r c) (declaredKeys keys).zipIdx

/-- A key is generated with its own part of the choices. -/
theorem memberAt_eq_ok {a : (String × Pattern) × Nat} {b : String × Option Value} :
    memberAt e gen r c a = .ok b ↔
      Key.base a.1.1 = b.1 ∧ member e gen a.1.1 a.1.2 r (c.part a.2) = .ok b.2 := by
  unfold memberAt
  rw [Outcome.bind_eq_ok]
  constructor
  · rintro ⟨w, hw, h⟩
    cases h
    exact ⟨rfl, hw⟩
  · rintro ⟨hb, hw⟩
    exact ⟨b.2, hw, by rw [hb]; rfl⟩

/-- Every declared key gets something or is left out. -/
theorem exists_of_declaredKeys (h : members e gen keys r c = .ok values)
    (hk : (key, p) ∈ declaredKeys keys) :
    ∃ i value, (Key.base key, value) ∈ values ∧ member e gen key p r (c.part i) = .ok value := by
  obtain ⟨i, hi⟩ := List.getElem?_of_mem hk
  have hmem : ((key, p), i) ∈ (declaredKeys keys).zipIdx := List.mk_mem_zipIdx_iff_getElem?.2 hi
  obtain ⟨⟨name, value⟩, hb, hab⟩ := Outcome.exists_of_traverse h hmem
  obtain ⟨hname, hvalue⟩ := memberAt_eq_ok.1 hab
  obtain rfl : Key.base key = name := hname
  exact ⟨i, value, hb, hvalue⟩

/-- What is under a name belongs to a declared key with that base name. -/
theorem exists_of_mem_members (h : members e gen keys r c = .ok values)
    (hv : (name, value) ∈ values) : ∃ m ∈ declaredKeys keys, Key.base m.1 = name := by
  obtain ⟨a, ha, hab⟩ := Outcome.exists_of_mem_traverse h hv
  exact ⟨a.1, List.fst_mem_of_mem_zipIdx ha, (memberAt_eq_ok.1 hab).1⟩

/-- The generated members have the base names of the declared keys, in their order. -/
theorem names_of_members (h : members e gen keys r c = .ok values) :
    values.map (·.1) = (declaredKeys keys).map fun m => Key.base m.1 := by
  have hall : List.Forall₂ (fun a b => memberAt e gen r c a = .ok b) (declaredKeys keys).zipIdx
      values := Outcome.forall₂_of_traverse h
  have hnames : (declaredKeys keys).zipIdx.map (fun a => Key.base a.1.1) = values.map (·.1) :=
    map_eq_of_forall₂ hall fun a b hab => (memberAt_eq_ok.1 hab).1
  rw [← hnames]
  conv_rhs => rw [← List.zipIdx_map_fst 0 (declaredKeys keys), List.map_map]
  rfl

end

/-- A generated object has a given value under every mandatory key, and no other keys than the
declared ones. -/
theorem fitsObject_of_object {keys : List (String × Pattern)}
    (hd : ((declaredKeys keys).map fun m => Key.base m.1).Nodup)
    (h : object e gen keys r c = .ok v) :
    ∃ fields, v = .object fields ∧ FitsObject keys fields (Given e gen r) := by
  rw [object] at h
  obtain ⟨values, hvalues, h⟩ := Outcome.bind_eq_ok.1 h
  have hvalues : members e gen keys r c = .ok values := hvalues
  obtain rfl : .object (Fields.ofPairs (values.filterMap fun a => a.2.map (a.1, ·))) = v :=
    Outcome.ok.inj h
  have hnodup : (values.map (·.1)).Nodup := names_of_members hvalues ▸ hd
  have hget {name : String} {v : Value} :
      Fields.get? (Fields.ofPairs (values.filterMap fun a => a.2.map (a.1, ·))) name = some v ↔
        (name, some v) ∈ values := by
    rw [Fields.get?_ofPairs_filterMap hnodup]
    constructor
    · rintro ⟨⟨_, _⟩, ha, rfl, rfl⟩
      exact ha
    · exact fun ha => ⟨_, ha, rfl, rfl⟩
  refine ⟨_, rfl, ?_, ?_, ?_⟩
  · refine Engine.unexpectedKeys_eq_nil fun name hname => ?_
    obtain ⟨v, hv⟩ := Option.isSome_iff_exists.1 (Fields.has_iff_mem_names.2 hname)
    obtain ⟨m, hm, rfl⟩ := exists_of_mem_members hvalues (hget.1 hv)
    exact Pattern.keyNamed?_base_ne_none (Pattern.mem_declaredKeys.1 hm).1
  · refine Engine.missingKeys_eq_nil_iff.2 fun key p hk hmandatory => ?_
    obtain ⟨i, value, hb, hvalue⟩ := exists_of_declaredKeys hvalues hk
    obtain ⟨v, rfl⟩ := exists_of_member_mandatory hmandatory hvalue
    exact Option.isSome_iff_exists.2 ⟨v, hget.2 hb⟩
  · rintro ⟨name, p, v⟩ hpart
    obtain ⟨key, hk, hbase, hv⟩ := Engine.mem_presentKeys.1 hpart
    obtain ⟨i, value, hb, hvalue⟩ := exists_of_declaredKeys hvalues hk
    have hsame : value = some v :=
      congrArg Prod.snd (List.inj_on_of_nodup_map hnodup hb (hget.1 hv) rfl)
    subst hsame
    exact given_of_member hvalue

/-! ## Arrays -/

/-- Further items are made, and a recursion ends them only once there are enough. -/
theorem items_spec {element : Pattern} {min left done : Nat} {values : List Value}
    (h : items gen element min r c left done = .ok values) :
    (min ≤ done + left → min ≤ done + values.length) ∧ ∀ v ∈ values, Made gen r element v := by
  induction left generalizing done values with
  | zero =>
    cases h
    exact ⟨id, nofun⟩
  | succ left ih =>
    rw [items] at h
    split at h
    · next v hv =>
      obtain ⟨rest, hrest, rfl⟩ := Outcome.map_eq_ok.1 h
      obtain ⟨hlen, hall⟩ := ih hrest
      refine ⟨fun hmin => ?_, List.forall_mem_cons.2 ⟨⟨_, hv⟩, hall⟩⟩
      have := hlen (by omega)
      simp only [List.length_cons]
      omega
    · split at h
      · next hdone =>
        cases h
        exact ⟨fun _ => by simpa using hdone, nofun⟩
      · cases h
    · cases h
    · cases h

/-- Repeated items are made, and they are enough. -/
theorem repeated_spec {element : Pattern} {min : Nat} {values : List Value}
    (h : repeated gen element min r c = .ok values) :
    min ≤ values.length ∧ ∀ v ∈ values, Made gen r element v := by
  obtain ⟨hlen, hall⟩ := items_spec h
  have hbetween := (c.between_bounds (Nat.le_add_right min 2)).1
  rw [Nat.zero_add, Nat.zero_add] at hlen
  exact ⟨hlen hbetween, hall⟩

/-- Every pattern has a value in its place. -/
theorem each_spec {patterns : List Pattern} {values : List Value}
    (h : each gen patterns r c = .ok values) : List.Forall₂ (Made gen r) patterns values := by
  have hall := Outcome.forall₂_of_traverse h
  clear h
  generalize 0 = start at hall
  induction patterns generalizing start values with
  | nil =>
    cases hall
    exact .nil
  | cons p patterns ih =>
    cases hall with
    | cons hv hall => exact .cons ⟨_, hv⟩ (ih _ hall)

/-- A generated array has the fixed elements and enough of the repeated one. -/
theorem fitsArray_of_array {elements : List Pattern} (h : array gen elements r c = .ok v) :
    ∃ items, v = .array items ∧ FitsArray elements items (Made gen r) := by
  obtain ⟨head, hhead, h⟩ := Outcome.bind_eq_ok.1 h
  have hfixed := each_spec hhead
  have hlen := hfixed.length_eq
  obtain ⟨tail, rfl, hfits, htail⟩ : ∃ tail, v = .array (head ++ tail) ∧
      FitsLength elements (head ++ tail).length ∧
      ∀ last, (splitRest elements).2 = some last → ∀ v ∈ tail, Made gen r last.1 v := by
    unfold FitsLength
    cases hrest : (splitRest elements).2 with
    | none =>
      simp only [hrest] at h
      cases h
      exact ⟨[], rfl, by simp [hlen], by simp⟩
    | some last =>
      simp only [hrest] at h
      obtain ⟨tail, htail, h⟩ := Outcome.bind_eq_ok.1 h
      cases h
      obtain ⟨hmin, hmade⟩ := repeated_spec htail
      refine ⟨tail, rfl, by simpa [hlen] using hmin, ?_⟩
      rintro _ ⟨rfl⟩
      exact hmade
  refine ⟨_, rfl, hfits, fun i p v hplace hv => ?_⟩
  · rcases Option.or_eq_some_iff.1 hplace with hi | ⟨hi, hlast⟩
    · have hlt := (List.getElem?_eq_some_iff.1 hi).1
      rw [List.getElem?_append_left (hlen ▸ hlt)] at hv
      have hzip : (p, v) ∈ (splitRest elements).1.zip head :=
        List.mem_of_getElem? (List.getElem?_zip_eq_some.2 ⟨hi, hv⟩)
      exact List.forall₂_zip hfixed hzip
    · obtain ⟨⟨q, min⟩, hrest, rfl⟩ := Option.map_eq_some_iff.1 hlast
      have hle := List.getElem?_eq_none_iff.1 hi
      rw [List.getElem?_append_right (hlen ▸ hle)] at hv
      exact htail _ hrest v (List.mem_of_getElem? hv)

/-! ## Dictionaries -/

/-- Further members have keys and values that are made. -/
theorem entries_spec {key value : Pattern} {left done : Nat} {pairs : List (String × Value)}
    (h : entries gen key value r c left done = .ok pairs) :
    ∀ m ∈ pairs, (∃ k, Made gen r key k ∧ m.1 = k.literal) ∧ Made gen r value m.2 := by
  induction left generalizing done pairs with
  | zero =>
    cases h
    intro m hm
    cases hm
  | succ left ih =>
    rw [entries] at h
    split at h
    · cases h
    · cases h
    · next name hname =>
      split at h
      · next v hv =>
        obtain ⟨rest, hrest, rfl⟩ := Outcome.map_eq_ok.1 h
        exact List.forall_mem_cons.2 ⟨⟨⟨name, ⟨_, hname⟩, rfl⟩, ⟨_, hv⟩⟩, ih hrest⟩
      · cases h
        intro m hm
        cases hm
      · cases h
      · cases h

/-- A generated dictionary has members whose keys and values are made. -/
theorem exists_of_dictionary {key value : Pattern}
    (h : dictionary gen key value r c = .ok v) :
    ∃ fields, v = .object fields ∧
      ∀ m ∈ fields, (∃ k, Made gen r key k ∧ m.1 = k.literal) ∧ Made gen r value m.2 := by
  obtain ⟨pairs, hpairs, rfl⟩ := Outcome.map_eq_ok.1 h
  exact ⟨_, rfl, fun m hm => entries_spec hpairs m (Fields.mem_of_mem_ofPairs hm)⟩

/-! ## Texts -/

/-- A generated list of texts is put together from items that are made. -/
theorem exists_of_csv {item : Pattern} (h : csv gen item r c = .ok v) :
    ∃ values : List Value, v = .string (",".intercalate (values.map Value.literal)) ∧
      ∀ w ∈ values, Made gen r item w := by
  obtain ⟨values, hvalues, h⟩ := Outcome.bind_eq_ok.1 h
  cases h
  refine ⟨values, rfl, fun w hw => ?_⟩
  obtain ⟨p, hp, hmade⟩ := exists_left_of_forall₂ (each_spec hvalues) hw
  exact List.eq_of_mem_replicate hp ▸ hmade

/-! ## Unions -/

/-- The value of the first pattern that has one is made of some of the patterns. -/
theorem exists_of_first {candidates : List (Pattern × Nat)} {last : ContractError}
    (h : first gen r c candidates last = .ok v) : ∃ a ∈ candidates, Made gen r a.1 v := by
  induction candidates generalizing last with
  | nil => cases h
  | cons a candidates ih =>
    obtain ⟨p, i⟩ := a
    rw [first] at h
    split at h
    · next w hw =>
      cases h
      exact ⟨_, List.mem_cons_self, _, hw⟩
    · obtain ⟨a, ha, hmade⟩ := ih h
      exact ⟨a, List.mem_cons_of_mem _ ha, hmade⟩
    · cases h

/-- A union generates a value of a member that is not null, or else null. -/
theorem exists_of_union {members : List Pattern} (h : union gen members r c = .ok v) :
    (∃ p ∈ Pattern.nonNull members, Made gen r p v) ∨
      v = .null ∧ (Pattern.nonNull members = [] ∨ Pattern.hasNull members = true) := by
  unfold union at h
  dsimp only at h
  split at h
  · next hempty =>
    cases h
    refine .inr ⟨rfl, .inl ?_⟩
    simpa using hempty
  · split at h
    · split at h
      · next hnull =>
        cases h
        exact .inr ⟨rfl, .inr hnull⟩
      · cases h
    · obtain ⟨a, ha, hmade⟩ := exists_of_first h
      refine .inl ⟨a.1, ?_, hmade⟩
      rcases List.mem_append.1 ha with ha | ha
      · exact List.fst_mem_of_mem_zipIdx (List.mem_of_mem_drop ha)
      · exact List.fst_mem_of_mem_zipIdx (List.mem_of_mem_take ha)

end Generation

namespace Pattern

/-- For some outcome of the choices, generation on some budget gives the value. -/
def Generates (p : Pattern) (v : Value) (r : Resolver) : Prop :=
  ∃ n, Generation.Made (Generation.ofBudget n) r p v

variable {p : Pattern} {s : Scalar} {v w : Value} {r : Resolver}

/-- What is generated on the computed budget is generated. -/
theorem generates_of_generate {c : Choices} (h : p.generate r c = .ok v) : p.Generates v r :=
  ⟨_, c, h⟩

/-- An exact pattern generates its value alone. -/
theorem eq_of_generates_exact (h : (exact w).Generates v r) : v = w := by
  obtain ⟨n, h⟩ := h
  obtain ⟨m, c, h⟩ := Generation.exists_step h
  exact (Outcome.ok.inj h).symm

/-- A scalar pattern generates what its scalar does. -/
theorem exists_of_generates_scalar (h : (scalar s).Generates v r) :
    ∃ c, v = s.generate c := by
  obtain ⟨n, h⟩ := h
  obtain ⟨m, c, h⟩ := Generation.exists_step h
  exact ⟨c, (Outcome.ok.inj h).symm⟩

/-- A string-encoded pattern generates the literals of what the pattern inside it generates. -/
theorem exists_of_generates_inString (h : (inString p).Generates v r) :
    ∃ w, p.Generates w r ∧ v = .string w.literal := by
  obtain ⟨n, h⟩ := h
  obtain ⟨m, c, h⟩ := Generation.exists_step h
  obtain ⟨w, hw, h⟩ := Outcome.bind_eq_ok.1 h
  exact ⟨w, ⟨m, c, hw⟩, (Outcome.ok.inj h).symm⟩

end Pattern

end DataContract
