import DataContract.Proofs.Negatives.Soundness

/-!
# What the negative policies keep

A policy looks at what the pattern of a key travels as (`Pattern.TravelsAs`) and at what a negative
of it travels as. All policies go through the same substitutes, key by key and negative by negative
(`NegativePolicy.Substitutes`), and each keeps some of them. Every one that is kept is put under the
base name of its key, and the other keys stay as they are (`NegativePolicy.Corrupts`).
-/

namespace DataContract

/-! ## What patterns travel as -/

namespace Pattern

/-- The pattern travels as its own structure, whatever its parts are. -/
def IsStructure : Pattern → Prop
  | .anything | .object _ _ _ | .array _ | .list _ _ _ | .rest _ _ | .dictionary _ _ | .xml _ =>
    True
  | _ => False

/-- What the values of a pattern travel as: a nullable pattern, a lookup and a reference travel as
the pattern behind them. -/
inductive TravelsAs (r : Resolver) : Pattern → Family → Prop
  | scalar (s : Scalar) : TravelsAs r (.scalar s) s.family
  | exact (v : Value) : TravelsAs r (.exact v) (Family.ofValue v)
  | enumeration (shape : Enumeration) : TravelsAs r (.enumeration shape) shape.family
  | inString (type : Pattern) : TravelsAs r (.inString type) .string
  | csv (item : Pattern) : TravelsAs r (.csv item) .string
  | nullable {members : List Pattern} {title text : Option String} {only : Pattern} {f : Family}
      (honly : nonNull members = [only]) (hf : TravelsAs r only f) :
      TravelsAs r (.union members title text) f
  | union {members : List Pattern} {title text : Option String}
      (hmany : (nonNull members).length ≠ 1) : TravelsAs r (.union members title text) .structured
  | reference {name : String} {p : Pattern} {f : Family} (hname : r.resolve name = .ok p)
      (hf : TravelsAs r p f) : TravelsAs r (.reference name) f
  | unresolved {name : String} {err : ContractError} (hname : r.resolve name = .error err) :
      TravelsAs r (.reference name) .structured
  | lookup {key : String} {type : Pattern} {f : Family} (hf : TravelsAs r type f) :
      TravelsAs r (.lookup key type) f
  | itself {p : Pattern} (hp : p.IsStructure) : TravelsAs r p .structured

/-- The negative is a scalar or is encoded in a string, and travels as the family. -/
def isOfFamily (f : Family) : Pattern → Bool
  | .scalar s => s.family == f
  | .inString _ => f == .string
  | .csv _ => f == .string
  | _ => false

variable {r : Resolver} {p : Pattern} {f g : Family}

/-- A pattern travels as one family only. -/
theorem TravelsAs.unique (hf : p.TravelsAs r f) (hg : p.TravelsAs r g) : f = g := by
  induction hf with
  | nullable honly _ ih =>
    cases hg with
    | nullable honly' hg =>
      obtain rfl := List.singleton_inj.1 (honly.symm.trans honly')
      exact ih hg
    | union hmany => exact absurd (congrArg List.length honly) hmany
    | itself hp => exact hp.elim
  | union hmany =>
    cases hg with
    | nullable honly => exact absurd (congrArg List.length honly) hmany
    | union => rfl
    | itself => rfl
  | reference hname _ ih =>
    cases hg with
    | reference hname' hg =>
      cases hname.symm.trans hname'
      exact ih hg
    | unresolved hname' => cases hname.symm.trans hname'
    | itself hp => exact hp.elim
  | unresolved hname =>
    cases hg with
    | reference hname' => cases hname.symm.trans hname'
    | unresolved => rfl
    | itself => rfl
  | lookup _ ih =>
    cases hg with
    | lookup hg => exact ih hg
    | itself hp => exact hp.elim
  | itself hp =>
    cases hg with
    | union => rfl
    | unresolved => rfl
    | itself => rfl
    | _ => exact hp.elim
  | _ =>
    cases hg with
    | itself hp => exact hp.elim
    | _ => rfl

/-- What is found within a number of steps is what the pattern travels as. -/
theorem travelsAs_of_ofDeclared {n : Nat} (h : Family.ofDeclared r n p = some f) :
    p.TravelsAs r f := by
  induction n generalizing p with
  | zero => cases h
  | succ n ih =>
    cases p with
    | union members title text =>
      rw [Family.ofDeclared] at h
      split at h
      · next only honly => exact .nullable honly (ih h)
      · next hmany =>
        cases h
        refine .union fun hlen => ?_
        obtain ⟨only, honly⟩ := List.length_eq_one_iff.1 hlen
        exact hmany only honly
    | reference name =>
      rw [Family.ofDeclared] at h
      split at h
      · next hname => exact .reference hname (ih h)
      · next hname =>
        cases h
        exact .unresolved hname
    | lookup key type => exact .lookup (ih h)
    | scalar s =>
      cases h
      exact .scalar s
    | exact v =>
      cases h
      exact .exact v
    | enumeration shape =>
      cases h
      exact .enumeration shape
    | inString type =>
      cases h
      exact .inString type
    | csv item =>
      cases h
      exact .csv item
    | _ =>
      cases h
      exact .itself trivial

end Pattern

/-! ## The form of negatives -/

namespace Negatives

open Pattern (declaredKeys)

variable {r : Resolver} {row : Row} {p q : Pattern} {n : Nat}

/-- A negative is a scalar, a structure, or encoded in a string. -/
def IsSubstitute : Pattern → Prop
  | .scalar _ => True
  | .object _ _ _ => True
  | .array _ => True
  | .list _ _ _ => True
  | .rest _ _ => True
  | .dictionary _ _ => True
  | .xml _ => True
  | .inString _ => True
  | _ => False

/-- The wrong shapes of a family are scalars and so substitutes. -/
theorem isSubstitute_ofFamily {f : Family} (h : q ∈ ofFamily f) : IsSubstitute q := by
  obtain ⟨s, rfl, -⟩ := exists_of_mem_ofFamily h
  trivial

/-- A mapped list holds substitutes only, once every image is one. -/
theorem isSubstitute_of_map {α : Type} {l : LazyList α} {f : α → Pattern}
    (h : q ∈ (l.map f).toList) (hf : ∀ a, IsSubstitute (f a)) : IsSubstitute q := by
  obtain ⟨a, -, rfl⟩ := LazyList.mem_toList_map h
  exact hf a

/-- Corrupting one child of an element leaves an element, never null. -/
theorem isSubstitute_child {source : NegativeSource} {shape : XmlShape Pattern} {i : Nat}
    (h : q ∈ (child source shape i p row r).toList) : IsSubstitute q := by
  cases p with
  | xml element =>
    rcases LazyList.mem_toList_append h with h | h
    · rw [LazyList.toList_ofList] at h
      split at h
      · obtain rfl := List.mem_singleton.1 h
        trivial
      · cases h
    · exact isSubstitute_of_map h fun _ => trivial
  | _ => cases h

/-- Corrupting any part of an element leaves an element, never null. -/
theorem isSubstitute_xmlParts {source : NegativeSource} {shape : XmlShape Pattern}
    (h : q ∈ (xmlParts source shape row r).toList) : IsSubstitute q := by
  unfold xmlParts at h
  split at h
  · cases h
  · cases h
  · rcases LazyList.mem_toList_append h with h | h
    · rw [LazyList.toList_ofList] at h
      obtain ⟨_, -, rfl⟩ := List.mem_map.1 h
      trivial
    · split at h
      · exact isSubstitute_of_map h fun _ => trivial
      · obtain ⟨_, -, h⟩ := LazyList.mem_toList_flatMap h
        exact isSubstitute_child h

/-- Whatever the pattern, its negatives are scalars, structures or encoded in strings. -/
theorem isSubstitute_of_mem (h : q ∈ (ofBudget n p row r).toList) : IsSubstitute q := by
  induction n generalizing p q row r with
  | zero => cases h
  | succ n ih =>
    have h : q ∈ (step (Engine.ofBudget n) (ofBudget n) p row r).toList := h
    cases p with
    | scalar | exact | csv => exact isSubstitute_ofFamily (LazyList.toList_ofList _ ▸ h)
    | enumeration =>
      have h : q ∈ (LazyList.ofList (List.filter _ _)).toList := h
      rw [LazyList.toList_ofList] at h
      exact isSubstitute_ofFamily (List.mem_of_mem_filter h)
    | anything => cases h
    | object | rest | dictionary => exact isSubstitute_of_map h fun _ => trivial
    | array =>
      obtain ⟨_, _, _, -, -, rfl⟩ := exists_of_mem_array h
      trivial
    | list =>
      rcases cases_of_mem_list h with h | ⟨_, -, rfl⟩
      · obtain ⟨s, rfl, -⟩ := exists_of_mem_simple h
        trivial
      · trivial
    | xml shape =>
      have h : q ∈ (xml (ofBudget n) shape row r).toList := h
      unfold xml at h
      split at h
      · exact isSubstitute_xmlParts h
      · split at h
        · cases h
        · exact isSubstitute_xmlParts h
    | union =>
      obtain ⟨⟨_, -, h⟩, -⟩ := exists_of_mem_union h
      exact ih h
    | reference name =>
      rw [step] at h
      split at h
      · cases h
      · split at h
        · cases h
        · exact ih h
    | lookup => exact ih h
    | inString =>
      rcases cases_of_mem_inString h with h | ⟨_, -, -, rfl⟩
      · exact isSubstitute_ofFamily h
      · trivial

/-- An element never generates null. -/
theorem xml_ne_null (gen : Generator) (shape : XmlShape Pattern) (c : Choices) :
    Generation.xml gen shape r c ≠ .ok .null := by
  intro h
  unfold Generation.xml at h
  dsimp only at h
  split at h
  all_goals
    obtain ⟨_, -, h⟩ := Outcome.bind_eq_ok.1 h
    obtain ⟨_, -, h⟩ := Outcome.bind_eq_ok.1 h
    obtain ⟨_, -, h⟩ := Outcome.bind_eq_ok.1 h
    obtain ⟨_, -, h⟩ := Outcome.bind_eq_ok.1 h
    cases h

/-- Of the negatives only null makes null. -/
theorem isNull_of_generates (hq : IsSubstitute q) (h : q.Generates .null r) : q.isNull = true := by
  obtain ⟨n, h⟩ := h
  cases q with
  | rest =>
    obtain ⟨m, c, hv⟩ := Generation.exists_step h
    obtain ⟨_, -, hv⟩ := Outcome.map_eq_ok.1 hv
    cases hv
  | xml shape =>
    obtain ⟨m, c, hv⟩ := Generation.exists_step h
    exact absurd hv (xml_ne_null _ shape c)
  | inString type =>
    obtain ⟨_, -, hv⟩ := Pattern.exists_of_generates_inString ⟨n, h⟩
    cases hv
  | scalar | object | array | list | dictionary => exact isNull_of_made rfl h
  | _ => exact hq.elim

end Negatives

/-! ## Substitutes -/

namespace NegativePolicy

open Pattern (PlainKeys declaredKeys)

/-- A negative in the place of the pattern of a key, and what that pattern travels as. -/
structure Substitute where
  key : String
  family : Family
  negative : Pattern

/-- The keys with the substitute in its place. -/
def Substitute.put (keys : List (String × Pattern)) (s : Substitute) : List (String × Pattern) :=
  corrupt keys s.key s.negative

/-- The substitute is neither null nor a scalar or encoded in a string as the key itself travels. -/
def Substitute.isForeign (s : Substitute) : Bool :=
  !s.negative.isNull && !s.negative.isOfFamily s.family

/-- The substitutes for the keys: for one key after the other all negatives of its pattern. -/
inductive Substitutes (source : NegativeSource) (row : Row) (r : Resolver) :
    List (String × Pattern) → List Substitute → Prop
  | nil : Substitutes source row r [] []
  | cons {key : String} {p : Pattern} {keys : List (String × Pattern)} {f : Family}
      {negatives : List Pattern} {rest : List Substitute} (hf : p.TravelsAs r f)
      (hnegatives : (source p (row.stepDown (Key.base key)) r).toList? = some negatives)
      (hrest : Substitutes source row r keys rest) :
      Substitutes source row r ((key, p) :: keys) (negatives.map (⟨key, f, ·⟩) ++ rest)

/-- The keys are changed at one key only, which has become mandatory. -/
structure Corrupts (keys corrupted : List (String × Pattern)) (key : String) (negative : Pattern) :
    Prop where
  ordered : Fields.Ordered corrupted
  mem_iff {m : String × Pattern} :
    m ∈ corrupted ↔ m = (Key.base key, negative) ∨ m ∈ keys ∧ m.1 ≠ key

variable {source : NegativeSource} {policy : NegativePolicy} {row : Row} {r r' : Resolver}
  {keys declared : List (String × Pattern)} {subs : List Substitute} {s : Substitute}
  {key : String} {p : Pattern} {n : Nat}

/-- The corruptions of one key that a policy keeps. -/
def corruptionsAt (policy : NegativePolicy) (source : NegativeSource)
    (keys : List (String × Pattern)) (row : Row) (r : Resolver) (m : String × Pattern) :
    LazyList (List (String × Pattern)) :=
  match Family.ofDeclared r (m.2.weight + r.weight) m.2 with
  | none => .stalled
  | some family =>
    ((source m.2 (row.stepDown (Key.base m.1)) r).filter (policy.keeps family)).map
      (corrupt keys m.1)

/-- Every policy goes through the keys in order and gathers the corruptions at each. -/
theorem corruptions_eq : policy.corruptions source keys row r =
    (LazyList.ofList keys).flatMap (corruptionsAt policy source keys row r) :=
  rfl

/-- Where the corruptions of a key are complete the pattern travels as something and its negatives
are complete, and each policy keeps some of them. -/
theorem exists_of_corruptionsAt
    (h : (corruptionsAt policy source keys row r (key, p)).isComplete = true) :
    ∃ f negatives, p.TravelsAs r f ∧
      (source p (row.stepDown (Key.base key)) r).toList? = some negatives ∧
      ∀ policy : NegativePolicy, (corruptionsAt policy source keys row r (key, p)).toList? =
        some ((negatives.filter (policy.keeps f)).map (corrupt keys key)) := by
  unfold corruptionsAt at h ⊢
  dsimp only at h ⊢
  cases hf : Family.ofDeclared r (p.weight + r.weight) p with
  | none =>
    rw [hf] at h
    cases h
  | some f =>
    rw [hf] at h
    dsimp only at h
    rw [LazyList.isComplete_map, LazyList.isComplete_filter] at h
    refine ⟨f, _, Pattern.travelsAs_of_ofDeclared hf,
      LazyList.toList?_eq_some_iff.2 ⟨h, rfl⟩, fun policy => LazyList.toList?_eq_some_iff.2 ?_⟩
    rw [LazyList.isComplete_map, LazyList.isComplete_filter, LazyList.toList_map,
      LazyList.toList_filter]
    exact ⟨h, rfl⟩

/-- The keys with the substitutes of one key and with those of the others. -/
theorem map_put_append {f : Family} {negatives : List Pattern} (rest : List Substitute) :
    ((negatives.map (Substitute.mk key f) ++ rest).filter
      fun s => policy.keeps s.family s.negative).map (Substitute.put keys) =
      (negatives.filter (policy.keeps f)).map (corrupt keys key) ++
        (rest.filter fun s => policy.keeps s.family s.negative).map (Substitute.put keys) := by
  rw [List.filter_append, List.map_append, List.filter_map, List.map_map]
  rfl

/-- Every policy goes through the same substitutes and keeps some of them. -/
theorem exists_substitutes
    (h : ((LazyList.ofList declared).flatMap
      (corruptionsAt policy source keys row r)).isComplete = true) :
    ∃ subs, Substitutes source row r declared subs ∧
      ∀ policy : NegativePolicy,
        ((LazyList.ofList declared).flatMap (corruptionsAt policy source keys row r)).toList? =
          some ((subs.filter fun s => policy.keeps s.family s.negative).map
            (Substitute.put keys)) := by
  induction declared with
  | nil => exact ⟨[], .nil, fun _ => rfl⟩
  | cons m declared ih =>
    obtain ⟨hat, hrest⟩ := LazyList.isComplete_append.1 h
    obtain ⟨rest, hsubs, hkept⟩ := ih hrest
    obtain ⟨f, negatives, hf, hnegatives, hat⟩ := exists_of_corruptionsAt hat
    refine ⟨_, .cons hf hnegatives hsubs, fun policy => ?_⟩
    rw [map_put_append]
    exact LazyList.toList?_append (hat policy) (hkept policy)

/-- There is only one sequence of substitutes for given keys. -/
theorem Substitutes.unique {others : List Substitute} (h : Substitutes source row r keys subs)
    (hothers : Substitutes source row r keys others) : subs = others := by
  induction h generalizing others with
  | nil =>
    cases hothers
    rfl
  | cons hf hnegatives _ ih =>
    cases hothers with
    | cons hf' hnegatives' hrest' =>
      obtain rfl := hf.unique hf'
      obtain rfl := Option.some.inj (hnegatives.symm.trans hnegatives')
      rw [ih hrest']

/-- A substitution of the list belongs to a key of the object, whose pattern supplies its
negative. -/
theorem Substitutes.exists_of_mem (h : Substitutes source row r keys subs) (hs : s ∈ subs) :
    ∃ p, (s.key, p) ∈ keys ∧ p.TravelsAs r s.family ∧
      s.negative ∈ (source p (row.stepDown (Key.base s.key)) r).toList := by
  induction h with
  | nil => cases hs
  | cons hf hnegatives _ ih =>
    rcases List.mem_append.1 hs with hs | hs
    · obtain ⟨negative, hnegative, rfl⟩ := List.mem_map.1 hs
      obtain ⟨-, hall⟩ := LazyList.toList?_eq_some_iff.1 hnegatives
      exact ⟨_, List.mem_cons_self, hf, hall ▸ hnegative⟩
    · obtain ⟨p, hp, hrest⟩ := ih hs
      exact ⟨p, List.mem_cons_of_mem _ hp, hrest⟩

/-! ## What is kept -/

/-- For typed bodies the foreign substitutes are kept. -/
theorem keeps_nonStringly (hs : Negatives.IsSubstitute s.negative) :
    NegativePolicy.nonStringly.keeps s.family s.negative = s.isForeign := by
  obtain ⟨key, f, q⟩ := s
  cases q with
  | scalar t => cases t <;> rfl
  | inString => cases f <;> rfl
  | object | array | list | rest | dictionary | xml => rfl
  | _ => exact hs.elim

/-- For values carried as text those for strings are left out, too. -/
theorem keeps_stringly (f : Family) (q : Pattern) :
    NegativePolicy.stringly.keeps f q =
      (decide (f ≠ .string) && NegativePolicy.nonStringly.keeps f q) := by
  have hbne : (f != .string) = decide (f ≠ .string) := by cases f <;> rfl
  unfold keeps
  dsimp only
  rw [hbne, Bool.and_assoc]

/-! ## The corrupted keys -/

/-- Putting a substitution into the object changes its own key and no other. -/
theorem corrupts_put (hordered : Fields.Ordered keys) (hk : PlainKeys keys)
    (hclosed : declaredKeys keys = keys) (hp : (s.key, p) ∈ keys) :
    Corrupts keys (s.put keys) s.key s.negative := by
  rw [← hclosed] at hp
  have hperm := Negatives.perm_corrupt hk hp s.negative
  rw [hclosed] at hperm
  refine ⟨Fields.ordered_set ?_ _ _, fun {m} => ?_⟩
  · exact hordered.sublist ((Fields.remove_sublist _ _).map _)
  · rw [Substitute.put, hperm.mem_iff, List.mem_cons, Fields.mem_remove_iff hordered.nodup]

/-- A value that is generated from corrupted keys without facts has a value of the substitute under
the corrupted key. -/
theorem exists_of_generates_put {layout : Layout} {title : Option String} {v : Value}
    (hk : PlainKeys keys) (hclosed : declaredKeys keys = keys) (hp : (s.key, p) ∈ keys)
    (hf : r.facts = []) (h : (Pattern.object layout (s.put keys) title).Generates v r) :
    ∃ fields w, v = .object fields ∧ Fields.get? fields (Key.base s.key) = some w ∧
      s.negative.Generates w r := by
  rw [← hclosed] at hp
  obtain ⟨n, h⟩ := h
  obtain ⟨m, c, hv⟩ := Generation.exists_step h
  have hnodup := Negatives.nodup_corrupt hk hp s.negative
  have hmem := Negatives.mem_corrupt hk hp s.negative
  rw [hclosed] at hnodup hmem
  obtain ⟨fields, rfl, hfits⟩ := Generation.fitsObject_of_object hnodup hv
  have hmandatory := (hk.mandatory _ hp).1
  have hbase := Key.base_of_mandatory hmandatory
  have hhas := Engine.missingKeys_eq_nil_iff.1 hfits.present _ _ hmem hmandatory
  obtain ⟨w, hw⟩ := Option.isSome_iff_exists.1 hhas
  have hgiven := hfits.values (Key.base s.key, s.negative, w)
    (Engine.mem_presentKeys.2 ⟨_, hmem, hbase, hw⟩)
  rw [hbase] at hw
  exact ⟨fields, w, rfl, hw, m, hgiven.made hf⟩

/-- Every policy corrupts one key at a time, and the policies go through the same substitutes for
the keys: all and strict ones keep all of them in order, those for typed bodies the foreign ones,
and those for values carried as text of these the ones that are not for strings. Whatever is
generated without facts from keys with a foreign substitute is not null at the corrupted key. -/
theorem corruptions_spec (hordered : Fields.Ordered keys)
    (hnodup : ((Fields.names keys).map Key.base).Nodup)
    (hplain : ∀ name ∈ Fields.names keys, Key.IsPlain (Key.base name))
    (h : (policy.corruptions (Negatives.ofBudget n) keys row r).isComplete = true) :
    ∃ subs, Substitutes (Negatives.ofBudget n) row r keys subs ∧
      (∀ s ∈ subs, Corrupts keys (s.put keys) s.key s.negative) ∧
      (NegativePolicy.all.corruptions (Negatives.ofBudget n) keys row r).toList? =
        some (subs.map (Substitute.put keys)) ∧
      (NegativePolicy.strict.corruptions (Negatives.ofBudget n) keys row r).toList? =
        some (subs.map (Substitute.put keys)) ∧
      (NegativePolicy.nonStringly.corruptions (Negatives.ofBudget n) keys row r).toList? =
        some ((subs.filter Substitute.isForeign).map (Substitute.put keys)) ∧
      (NegativePolicy.stringly.corruptions (Negatives.ofBudget n) keys row r).toList? =
        some (((subs.filter Substitute.isForeign).filter (·.family ≠ .string)).map
          (Substitute.put keys)) ∧
      ∀ s ∈ subs.filter Substitute.isForeign, ∀ layout title v r', r'.facts = [] →
        (Pattern.object layout (s.put keys) title).Generates v r' →
        ∃ fields w, v = .object fields ∧ Fields.get? fields (Key.base s.key) = some w ∧
          w ≠ .null := by
  have hk : PlainKeys keys := Pattern.plainKeys_of_forall hnodup hplain
  have hclosed : declaredKeys keys = keys := by
    refine List.filter_eq_self.2 fun m hm => bne_iff_ne.2 fun he => ?_
    refine (hplain _ (List.mem_map_of_mem hm)).2 ?_
    rw [he]
    rfl
  obtain ⟨subs, hsubs, hkept⟩ := exists_substitutes h
  have hform (s : Substitute) (hs : s ∈ subs) : Negatives.IsSubstitute s.negative := by
    obtain ⟨p, -, -, hnegative⟩ := hsubs.exists_of_mem hs
    exact Negatives.isSubstitute_of_mem hnegative
  have hforeign : subs.filter (fun s => NegativePolicy.nonStringly.keeps s.family s.negative) =
      subs.filter Substitute.isForeign :=
    List.filter_congr fun s hs => keeps_nonStringly (hform s hs)
  have htext : subs.filter (fun s => NegativePolicy.stringly.keeps s.family s.negative) =
      (subs.filter Substitute.isForeign).filter (·.family ≠ .string) := by
    rw [← hforeign, List.filter_filter]
    exact List.filter_congr fun s _ => keeps_stringly s.family s.negative
  have hall : subs.filter (fun _ => true) = subs := List.filter_true subs
  refine ⟨subs, hsubs, fun s hs => ?_, ?_, ?_, ?_, ?_, fun s hs layout title v r' hf hv => ?_⟩
  · obtain ⟨p, hp, -⟩ := hsubs.exists_of_mem hs
    exact corrupts_put hordered hk hclosed hp
  · exact hall ▸ hkept .all
  · exact hall ▸ hkept .strict
  · rw [corruptions_eq, hkept, hforeign]
  · rw [corruptions_eq, hkept, htext]
  · obtain ⟨hs, hsforeign⟩ := List.mem_filter.1 hs
    obtain ⟨p, hp, -⟩ := hsubs.exists_of_mem hs
    obtain ⟨fields, w, rfl, hw, hmade⟩ := exists_of_generates_put hk hclosed hp hf hv
    refine ⟨fields, w, rfl, hw, ?_⟩
    rintro rfl
    have hnull := Negatives.isNull_of_generates (hform s hs) hmade
    simp [Substitute.isForeign, hnull] at hsforeign

/-- The keys of a contact: an identifier of a named type, and an optional name. -/
def contactKeys : List (String × Pattern) :=
  [("id", .reference "(Id)"), ("name?", .string)]

/-- Identifiers are numbers or null. -/
def contactResolver : Resolver :=
  { Resolver.empty with registry := [("(Id)", .nullable .number)] }

/-- The example object satisfies what the specification of the policies asks for. -/
theorem contactKeys_corruptions :
    Fields.Ordered contactKeys ∧ ((Fields.names contactKeys).map Key.base).Nodup ∧
      (∀ name ∈ Fields.names contactKeys, Key.IsPlain (Key.base name)) ∧
      (NegativePolicy.all.corruptions (Negatives.ofBudget 4) contactKeys .empty
        contactResolver).isComplete = true ∧
      ∃ subs, Substitutes (Negatives.ofBudget 4) .empty contactResolver contactKeys subs ∧
        (∀ s ∈ subs, Corrupts contactKeys (s.put contactKeys) s.key s.negative) ∧
        (NegativePolicy.all.corruptions (Negatives.ofBudget 4) contactKeys .empty
          contactResolver).toList? = some (subs.map (Substitute.put contactKeys)) ∧
        (NegativePolicy.stringly.corruptions (Negatives.ofBudget 4) contactKeys .empty
          contactResolver).toList? =
          some (((subs.filter Substitute.isForeign).filter (·.family ≠ .string)).map
            (Substitute.put contactKeys)) := by
  have hordered : Fields.Ordered contactKeys := by decide
  have hnodup : ((Fields.names contactKeys).map Key.base).Nodup := by decide
  have hplain : ∀ name ∈ Fields.names contactKeys, Key.IsPlain (Key.base name) := by decide
  have hcomplete : (NegativePolicy.all.corruptions (Negatives.ofBudget 4) contactKeys .empty
    contactResolver).isComplete = true := rfl
  obtain ⟨subs, hsubs, hcorrupts, hall, -, -, hstringly, -⟩ :=
    corruptions_spec hordered hnodup hplain hcomplete
  exact ⟨hordered, hnodup, hplain, hcomplete, subs, hsubs, hcorrupts, hall, hstringly⟩

/-- Carried as text, the identifier of a contact is corrupted and its name is not. -/
example :
    (NegativePolicy.stringly.corruptions (Negatives.ofBudget 4) contactKeys .empty
      contactResolver).toList? =
      some [[("id", .boolean), ("name?", .string)], [("id", .string), ("name?", .string)]] := by
  rfl

end NegativePolicy

end DataContract
