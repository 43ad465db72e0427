import DataContract.Proofs.Acceptance
import DataContract.Proofs.Outcomes

/-!
# Which objects an object pattern accepts

An object pattern accepts exactly the objects that have the mandatory keys, have no key that it does
not admit, and have accepted values under the declared keys (`Pattern.accepts_object_iff`). The keys
that a closed pattern admits are the base names of its declared keys and, besides, those keys as
they are declared, mark and all (`Pattern.AdmitsKey`): a value may have a member `nick?` where
`nick?` is declared, and nothing is asked of what stands under it (`Pattern.markedKey_accepted`).
-/

namespace DataContract

namespace Pattern

/-- A key that a value may have: any if the pattern is open, else the base name of a declared key,
or a declared key as it is written. -/
def AdmitsKey (keys : List (String × Pattern)) (name : String) : Prop :=
  isOpen keys = true ∨ ∃ m ∈ declaredKeys keys, Key.base m.1 = name ∨ m.1 = name

variable {keys : List (String × Pattern)} {name : String}

/-- The keys that a closed pattern finds are the base names of its keys and its keys themselves. -/
theorem keyNamed?_ne_none_iff :
    keyNamed? keys name ≠ none ↔ ∃ m ∈ keys, Key.base m.1 = name ∨ m.1 = name := by
  constructor
  · intro hne
    rw [Ne, keyNamed?_eq_none, ← not_or, not_not] at hne
    rcases hne with hname | hname
    · obtain ⟨m, hm, rfl⟩ := List.mem_map.1 hname
      exact ⟨m, hm, .inr rfl⟩
    · obtain ⟨m, hm, he⟩ := List.mem_map.1 hname
      exact ⟨m, hm, .inl (by rw [he, Key.base_optional])⟩
  · rintro ⟨⟨key, p⟩, hm, rfl | rfl⟩
    · exact keyNamed?_base_ne_none hm
    · intro hnone
      exact (keyNamed?_eq_none.1 hnone).1 (List.mem_map_of_mem hm)

/-- A closed object admits the keys it names and no others. -/
theorem admitsKey_iff_of_closed (hc : isOpen keys = false) :
    AdmitsKey keys name ↔ keyNamed? keys name ≠ none := by
  rw [keyNamed?_ne_none_iff, AdmitsKey, hc, declaredKeys_of_closed hc]
  simp

end Pattern

namespace Engine

open Pattern (FitsObject AdmitsKey)

variable {e : Engine} {r : Resolver} {keys : List (String × Pattern)}
  {members : List (String × Value)}

/-- No key is undeclared exactly when the pattern admits every one. -/
theorem unexpectedKeys_eq_nil_iff :
    unexpectedKeys keys members = [] ↔ ∀ name ∈ Fields.names members, AdmitsKey keys name := by
  cases hc : Pattern.isOpen keys with
  | true => exact ⟨fun _ _ _ => .inl hc, fun _ => unexpectedKeys_of_isOpen hc⟩
  | false =>
    constructor
    · intro h name hn
      obtain ⟨key, p, hk⟩ := keyNamed?_of_unexpectedKeys hc h hn
      exact (Pattern.admitsKey_iff_of_closed hc).2 (by simp [hk])
    · intro h
      exact unexpectedKeys_eq_nil fun name hn => (Pattern.admitsKey_iff_of_closed hc).1 (h name hn)

/-- An object that has the shape of the pattern, with parts that succeed, succeeds. -/
theorem succeeds_checkObject_of_fits (title : Option String)
    (h : FitsObject keys members fun p v => Succeeds (e.check p v r)) :
    Succeeds (e.checkObject keys title (.object members) r) := by
  have hpart (part : String × Pattern × Value) (hp : part ∈ presentKeys keys members) :
      (e.check part.2.1 part.2.2 r).map (·.under part.1) = some .success := by
    rw [h.values part hp]
    rfl
  show Succeeds (traverse? _ _ >>= _)
  rw [(@traverse?_eq_some_iff _ _ _ _ ((presentKeys keys members).map fun _ => .success)).2,
    h.declared, h.present]
  · simp
  · rw [List.map_map]
    exact List.map_congr_left hpart

end Engine

namespace Pattern

variable {r : Resolver} {v : Value} {layout : Layout} {keys : List (String × Pattern)}
  {title : Option String} {members : List (String × Value)} {name : String}

/-- Finitely many accepted values are all accepted on one budget. -/
theorem exists_common_budget {α : Type} {l : List α} {p : α → Pattern} {w : α → Value}
    (h : ∀ a ∈ l, (p a).Accepts (w a) r) :
    ∃ n, ∀ a ∈ l, Succeeds ((Engine.ofBudget n).check (p a) (w a) r) := by
  induction l with
  | nil => exact ⟨0, nofun⟩
  | cons a l ih =>
    obtain ⟨n, hn⟩ := h a List.mem_cons_self
    obtain ⟨m, hm⟩ := ih fun b hb => h b (List.mem_cons_of_mem _ hb)
    have hmono {k : Nat} {b : α} (hk : k ≤ max n m)
        (hs : Succeeds ((Engine.ofBudget k).check (p b) (w b) r)) :
        Succeeds ((Engine.ofBudget (max n m)).check (p b) (w b) r) :=
      ((Engine.ofBudget_below hk).check (Value.equal_self _) (.refl r)).succeeds hs
    refine ⟨max n m, fun b hb => ?_⟩
    rcases List.mem_cons.1 hb with rfl | hb
    · exact hmono (Nat.le_max_left n m) hn
    · exact hmono (Nat.le_max_right n m) (hm b hb)

/-- An object that has the shape of the pattern, with accepted parts, is accepted. -/
theorem accepts_object_of_fits (hl : r.config.mockMode = false)
    (h : FitsObject keys members fun p v => p.Accepts v r) :
    (object layout keys title).Accepts (.object members) r := by
  obtain ⟨n, hn⟩ := exists_common_budget h.values
  refine ⟨n + 1, ?_⟩
  rw [check_succ hl]
  exact Engine.succeeds_checkObject_of_fits title ⟨h.declared, h.present, hn⟩

/-- An object pattern accepts exactly the objects of its shape with accepted parts. -/
theorem accepts_object_iff_fits (hl : r.config.mockMode = false) :
    (object layout keys title).Accepts v r ↔
      ∃ members, v = .object members ∧ FitsObject keys members fun p v => p.Accepts v r := by
  constructor
  · exact fun ha => ha.fits hl
  · rintro ⟨members, rfl, hfits⟩
    exact accepts_object_of_fits hl hfits

section
variable (hplain : ∀ name ∈ Fields.names keys, Key.IsPlain name)
include hplain

/-- Plain keys leave the object closed. -/
theorem isOpen_of_plain : isOpen keys = false :=
  Bool.eq_false_iff.2 fun hopen => (hplain ellipsis (isOpen_iff.1 hopen)).2 rfl

/-- A plain key carries no mark to strip. -/
theorem base_of_plain {m : String × Pattern} (hm : m ∈ keys) : Key.base m.1 = m.1 :=
  Key.base_of_mandatory (hplain m.1 (List.mem_map_of_mem hm)).1

/-- Of mandatory keys and no others an object pattern admits the keys themselves. -/
theorem admitsKey_iff_mem_names : AdmitsKey keys name ↔ name ∈ Fields.names keys := by
  rw [admitsKey_iff_of_closed (isOpen_of_plain hplain), keyNamed?_ne_none_iff, Fields.names,
    List.mem_map]
  refine exists_congr fun m => and_congr_right fun hm => ?_
  rw [base_of_plain hplain hm, or_self]

/-- Nothing is missing from a value that has every key of an object with plain keys. -/
theorem missingKeys_eq_nil_iff_of_plain :
    Engine.missingKeys keys members = [] ↔
      ∀ name ∈ Fields.names keys, name ∈ Fields.names members := by
  rw [Engine.missingKeys_eq_nil_iff, declaredKeys_of_closed (isOpen_of_plain hplain)]
  constructor
  · intro h name hname
    obtain ⟨m, hm, rfl⟩ := List.mem_map.1 hname
    rw [← base_of_plain hplain hm]
    exact Fields.has_iff_mem_names.1 (h m.1 m.2 hm (hplain m.1 hname).1)
  · intro h key p hm _
    rw [base_of_plain hplain hm]
    exact Fields.has_iff_mem_names.2 (h key (List.mem_map_of_mem hm))

/-- With plain keys, the present keys are those declared that the value has under the same name. -/
theorem mem_presentKeys_of_plain {part : String × Pattern × Value} :
    part ∈ Engine.presentKeys keys members ↔
      (part.1, part.2.1) ∈ keys ∧ Fields.get? members part.1 = some part.2.2 := by
  rw [Engine.mem_presentKeys, declaredKeys_of_closed (isOpen_of_plain hplain)]
  constructor
  · rintro ⟨key, hm, hbase, hw⟩
    rw [base_of_plain hplain hm] at hbase hw
    exact hbase ▸ ⟨hm, hw⟩
  · rintro ⟨hm, hw⟩
    refine ⟨part.1, hm, base_of_plain hplain hm, ?_⟩
    rwa [base_of_plain hplain hm]

/-- An object of the shape of mandatory keys and no others has these keys and nothing else. -/
theorem fitsObject_iff_forall₂ {ok : Pattern → Value → Prop} (hkeys : Fields.Ordered keys)
    (hmembers : Fields.Ordered members) :
    FitsObject keys members ok ↔
      List.Forall₂ (fun m n => m.1 = n.1 ∧ ok m.2 n.2) keys members := by
  have hsame (hnames : Fields.names keys = Fields.names members) :
      List.Forall₂ (fun m n => m.1 = n.1 ∧ ok m.2 n.2) keys members ↔
        ∀ m ∈ keys, ∀ w, Fields.get? members m.1 = some w → ok m.2 w :=
    Fields.forall₂_iff_get? (R := ok) hnames hkeys.nodup
  constructor
  · intro hfits
    have hdeclared := Engine.unexpectedKeys_eq_nil_iff.1 hfits.declared
    have hpresent := (missingKeys_eq_nil_iff_of_plain hplain).1 hfits.present
    have hnames : Fields.names keys = Fields.names members := by
      refine Fields.eq_of_mem_iff (f := id) ?_ ?_ fun name => ⟨hpresent name, fun hname => ?_⟩
      · rwa [List.map_id]
      · rwa [List.map_id]
      · exact (admitsKey_iff_mem_names hplain).1 (hdeclared name hname)
    exact (hsame hnames).2 fun m hm w hw =>
      hfits.values (m.1, m.2, w) ((mem_presentKeys_of_plain hplain).2 ⟨hm, hw⟩)
  · intro hall
    have hnames : Fields.names keys = Fields.names members :=
      map_eq_of_forall₂ hall fun _ _ h => h.1
    refine ⟨Engine.unexpectedKeys_eq_nil_iff.2 fun name hname => ?_,
      (missingKeys_eq_nil_iff_of_plain hplain).2 fun name hname => hnames ▸ hname,
      fun part hpart => ?_⟩
    · exact (admitsKey_iff_mem_names hplain).2 (hnames ▸ hname)
    · obtain ⟨hm, hw⟩ := (mem_presentKeys_of_plain hplain).1 hpart
      exact (hsame hnames).1 hall (part.1, part.2.1) hm part.2.2 hw

end

/-- What an object pattern accepts: objects whose keys it admits, with all mandatory keys, and with
an accepted value under every declared key that is there. -/
theorem accepts_object_iff (hl : r.config.mockMode = false) :
    (object layout keys title).Accepts v r ↔ ∃ members, v = .object members ∧
      (∀ name ∈ Fields.names members, AdmitsKey keys name) ∧
      (∀ m ∈ declaredKeys keys, Key.isOptional m.1 = false →
        Key.base m.1 ∈ Fields.names members) ∧
      ∀ m ∈ declaredKeys keys, ∀ w, Fields.get? members (Key.base m.1) = some w →
        m.2.Accepts w r := by
  constructor
  · intro ha
    obtain ⟨members, rfl, hfits⟩ : ∃ members, v = .object members ∧
        FitsObject keys members fun p v => p.Accepts v r := ha.fits hl
    refine ⟨members, rfl, Engine.unexpectedKeys_eq_nil_iff.1 hfits.declared, ?_, ?_⟩
    · rintro ⟨key, p⟩ hm hk
      exact Fields.has_iff_mem_names.1 (Engine.missingKeys_eq_nil_iff.1 hfits.present key p hm hk)
    · rintro ⟨key, p⟩ hm w hw
      exact hfits.values (Key.base key, p, w) (Engine.mem_presentKeys.2 ⟨key, hm, rfl, hw⟩)
  · rintro ⟨members, rfl, hadmits, hmandatory, hvalues⟩
    refine accepts_object_of_fits hl ⟨Engine.unexpectedKeys_eq_nil_iff.2 hadmits, ?_, ?_⟩
    · refine Engine.missingKeys_eq_nil_iff.2 fun key p hm hk => ?_
      exact Fields.has_iff_mem_names.2 (hmandatory (key, p) hm hk)
    · intro part hp
      obtain ⟨key, hm, -, hw⟩ := Engine.mem_presentKeys.1 hp
      exact hvalues (key, part.2.1) hm part.2.2 hw

/-- A closed object with one optional key. -/
def nickOnly : List (String × Pattern) :=
  [("nick?", .string)]

/-- The object with that key and a text under it is accepted, because its key and the value under it
are. -/
theorem nickOnly_accepts :
    Resolver.empty.config.mockMode = false ∧
      (object .json nickOnly none).Accepts (.object [("nick", .string "Jo")]) Resolver.empty := by
  refine ⟨rfl, (accepts_object_iff rfl).2 ⟨_, rfl, ?_, ?_, ?_⟩⟩
  · intro name hn
    obtain rfl : name = "nick" := by simpa [Fields.names] using hn
    exact .inr ⟨("nick?", .string), mem_declaredKeys.2 ⟨List.mem_cons_self, by decide⟩,
      .inl (by decide)⟩
  · intro m hm hk
    obtain rfl : m = ("nick?", .string) := by simpa [nickOnly, declaredKeys, ellipsis] using hm
    revert hk
    decide
  · intro m hm w hw
    obtain rfl : m = ("nick?", .string) := by simpa [nickOnly, declaredKeys, ellipsis] using hm
    obtain rfl : w = .string "Jo" := by
      have hb : Key.base "nick?" = "nick" := by decide
      simpa [hb, Fields.get?] using hw.symm
    exact ⟨1, rfl⟩

/-- The object whose only key is written with the mark is accepted too, with anything under it,
although that key is the base name of no declared key. -/
theorem markedKey_accepted :
    (object .json nickOnly none).Accepts (.object [("nick?", .number .one)]) Resolver.empty ∧
      isOpen nickOnly = false ∧ ∀ m ∈ declaredKeys nickOnly, Key.base m.1 ≠ "nick?" := by
  refine ⟨⟨2, rfl⟩, rfl, ?_⟩
  intro m hm
  obtain rfl : m = ("nick?", .string) := by simpa [nickOnly, declaredKeys, ellipsis] using hm
  decide

end Pattern

end DataContract
