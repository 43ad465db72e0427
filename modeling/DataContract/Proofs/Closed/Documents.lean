import DataContract.Document
import DataContract.Proofs.Closed.References
import DataContract.Proofs.Tokens.Decoding

/-!
# Loaded documents are closed

A shape denotes no XML element (`Shape.notXml_denote`), since tokens have no notation for them, and
loading looks up every name that the types and the root refer to. So the root of a loaded document
is closed, and so is what is registered for it (`ContractDocument.closed_of_load`). Types whose
names are the same in delimited form are all looked through, although only the last one is kept.
-/

namespace DataContract

open Pattern (Throughout NotXml)

namespace Token

variable {token : String} {p : Pattern}

/-- The pattern of a type expression holds no element, as no keyword names one. -/
theorem TypeExpr.notXml_pattern (e : TypeExpr) : e.pattern.Throughout NotXml := by
  induction e with
  | keyword k =>
    have hkeywords : ∀ m ∈ keywords, (∃ s, m.2 = .scalar s) ∨ m.2 = .anything := by
      simp [keywords, Pattern.number, Pattern.string, Pattern.boolean, Pattern.null]
    obtain ⟨word, p, hlisted⟩ := k
    rcases hkeywords _ hlisted with ⟨s, hs⟩ | hanything
    · obtain rfl : p = .scalar s := hs
      exact .leaf trivial rfl
    · obtain rfl : p = .anything := hanything
      exact .leaf trivial rfl
  | name n => exact .leaf trivial rfl
  | suffixed s e ih =>
    cases s with
    | nullable =>
      refine .intro trivial fun q hq => ?_
      rcases List.mem_cons.1 hq with rfl | hq
      · exact .leaf trivial rfl
      · exact List.mem_singleton.1 hq ▸ ih
    | rest | list | inString => exact .single trivial rfl ih

/-- The pattern of an expression holds no element, under lookups either. -/
theorem Expr.notXml_pattern (e : Expr) : e.pattern.Throughout NotXml := by
  induction e with
  | type e => exact e.notXml_pattern
  | lookup key e ih => exact .single trivial rfl ih

/-- What a token is read as holds no element, as it is the pattern of an expression. -/
theorem notXml_parse (h : parse token = .ok p) : p.Throughout NotXml := by
  have hdenote : denote (Text.trim token) ((Name.bareChars (Text.trim token)).length + 1)
      (Name.bareChars (Text.trim token)) = .ok p := h
  obtain ⟨e, -, rfl⟩ := (denote_eq_ok_iff (Nat.lt_succ_self _)).1 hdenote
  exact e.notXml_pattern

end Token

namespace Shape

variable {json : Json} {p q : Pattern} {key : String} {items : List Json}
  {members : List (String × Json)}

/-- A string shape denotes no element. -/
theorem notXml_stringShape (h : stringShape json = .ok p) : p.Throughout NotXml := by
  obtain ⟨lo, -, h⟩ := bind_eq_ok.1 h
  obtain ⟨hi, -, h⟩ := bind_eq_ok.1 h
  obtain ⟨range, -, h⟩ := bind_eq_ok.1 h
  cases h
  exact .leaf trivial rfl

/-- A number shape denotes no element. -/
theorem notXml_numberShape (h : numberShape json = .ok p) : p.Throughout NotXml := by
  obtain ⟨lo, -, h⟩ := bind_eq_ok.1 h
  obtain ⟨hi, -, h⟩ := bind_eq_ok.1 h
  obtain ⟨range, -, h⟩ := bind_eq_ok.1 h
  cases h
  exact .leaf trivial rfl

/-- The members of an enumeration are scalars and exact values. -/
theorem notXml_enumeration (shape : Enumeration) :
    (Pattern.enumeration shape).Throughout NotXml := by
  refine .intro trivial fun q hq => ?_
  rcases List.mem_append.1 hq with hq | hq
  · obtain ⟨v, -, rfl⟩ := List.mem_map.1 hq
    exact .leaf trivial rfl
  · split at hq
    · exact List.mem_singleton.1 hq ▸ .leaf trivial rfl
    · cases hq

/-- An enumeration shape denotes no element. -/
theorem notXml_enumShape (h : enumShape json members = .ok p) : p.Throughout NotXml := by
  unfold enumShape at h
  split at h
  · obtain ⟨values, -, h⟩ := bind_eq_ok.1 h
    obtain ⟨e, -, h⟩ := bind_eq_ok.1 h
    obtain ⟨text, -, h⟩ := bind_eq_ok.1 h
    cases h
    exact notXml_enumeration _
  · cases h

/-- An array of patterns without elements has none. -/
theorem notXml_arrayOf {ps : List Pattern} (h : ∀ p ∈ ps, p.Throughout NotXml) :
    (arrayOf ps).Throughout NotXml := by
  unfold arrayOf
  split
  · exact h _ List.mem_cons_self
  · exact .intro trivial h

mutual

/-- No shape denotes an element, by induction on the JSON that it is read from. -/
theorem notXml_denote : ∀ (json : Json) {p : Pattern}, denote json = .ok p → p.Throughout NotXml
  | .string s, p, h => by
    rw [denote] at h
    split at h
    · exact Token.notXml_parse h
    · cases h
      exact .leaf trivial rfl
  | .null, p, h => by
    cases h
    exact .leaf trivial rfl
  | .bool b, p, h => by
    cases h
    exact .leaf trivial rfl
  | .number n, p, h => by
    rw [denote] at h
    · obtain ⟨v, -, rfl⟩ := map_eq_ok.1 h
      exact .leaf trivial rfl
    all_goals exact nofun
  | .array items, p, h => by
    rw [denote] at h
    obtain ⟨ps, hps, rfl⟩ := map_eq_ok.1 h
    exact notXml_arrayOf (notXml_denoteItems items hps)
  | .object members, p, h => by
    rw [denote] at h
    split at h
    · exact notXml_enumShape h
    · split at h
      · cases h
      · next hoptions =>
        obtain ⟨ps, hps, h⟩ := bind_eq_ok.1 h
        obtain ⟨text, -, h⟩ := bind_eq_ok.1 h
        cases h
        exact .intro trivial (notXml_denoteArrayUnder _ members hoptions hps)
      · split at h
        · cases h
        · next hpair =>
          cases h
          exact .intro trivial (notXml_denoteArrayUnder _ members hpair rfl)
        · cases h
        · split at h
          · next hitem =>
            obtain ⟨q, hq, rfl⟩ := map_eq_ok.1 h
            exact .single trivial rfl (notXml_denoteUnder _ members hitem hq)
          · split at h
            · exact notXml_stringShape h
            · split at h
              · exact notXml_numberShape h
              · obtain ⟨keys, hkeys, rfl⟩ := map_eq_ok.1 h
                exact .intro trivial (notXml_denoteMembers members hkeys)

/-- The items of a shape denote no elements. -/
theorem notXml_denoteItems : ∀ (items : List Json) {ps : List Pattern},
    denoteItems items = .ok ps → ∀ p ∈ ps, p.Throughout NotXml
  | [], ps, h => by
    cases h
    exact nofun
  | item :: rest, ps, h => by
    rw [denoteItems] at h
    split at h
    · cases h
    · next hp =>
      obtain ⟨qs, hqs, rfl⟩ := map_eq_ok.1 h
      exact List.forall_mem_cons.2 ⟨notXml_denote item hp, notXml_denoteItems rest hqs⟩

/-- The members of a shape denote no elements. -/
theorem notXml_denoteMembers : ∀ (members : List (String × Json)) {keys : List (String × Pattern)},
    denoteMembers members = .ok keys → ∀ p ∈ keys.map (·.2), p.Throughout NotXml
  | [], keys, h => by
    cases h
    exact nofun
  | (key, item) :: rest, keys, h => by
    rw [denoteMembers] at h
    split at h
    · cases h
    · next hp =>
      obtain ⟨keys, hkeys, rfl⟩ := map_eq_ok.1 h
      exact List.forall_mem_cons.2 ⟨notXml_denote item hp, notXml_denoteMembers rest hkeys⟩

/-- What is under a key of a shape denotes no element. -/
theorem notXml_denoteUnder (key : String) : ∀ (members : List (String × Json)) {x} {p : Pattern},
    denoteUnder key members = some x → x = .ok p → p.Throughout NotXml
  | [], _, _, h, _ => nomatch h
  | (k, item) :: rest, x, p, h, hx => by
    rw [denoteUnder] at h
    split at h
    · exact notXml_denote item ((Option.some_inj.1 h).trans hx)
    · exact notXml_denoteUnder key rest h hx

/-- The list under a key of a shape denotes no elements. -/
theorem notXml_denoteArrayUnder (key : String) : ∀ (members : List (String × Json)) {n x}
    {ps : List Pattern}, denoteArrayUnder key members = some (some (n, x)) → x = .ok ps →
      ∀ p ∈ ps, p.Throughout NotXml
  | [], _, _, _, h, _ => nomatch h
  | (k, item) :: rest, n, x, ps, h, hx => by
    cases item with
    | array items =>
      rw [denoteArrayUnder] at h
      split at h
      · obtain ⟨rfl, rfl⟩ := Prod.mk.inj (Option.some_inj.1 (Option.some_inj.1 h))
        exact notXml_denoteItems items hx
      · exact notXml_denoteArrayUnder key rest h hx
    | _ =>
      rw [denoteArrayUnder] at h
      · split at h
        · cases h
        · exact notXml_denoteArrayUnder key rest h hx
      · exact nofun

end

end Shape

namespace ContractDocument

variable {document : ContractDocument} {contract : Contract} {r : Resolver} {p : Pattern}
  {name : String} {types : List (String × Pattern)}

/-- A title changes nothing about the parts of a pattern. -/
theorem notXml_withTitle (h : p.Throughout NotXml) : (withTitle name p).Throughout NotXml := by
  unfold withTitle
  split
  · exact .intro trivial fun q hq => h.inside hq
  · exact h

/-- The types of a document denote no elements. -/
theorem notXml_typePatterns (h : document.typePatterns = .ok types) :
    ∀ m ∈ types, m.2.Throughout NotXml := by
  intro m hm
  obtain ⟨⟨name, shape⟩, -, hshape⟩ := exists_of_mem_mapM h hm
  obtain ⟨p, hp, hm⟩ := bind_eq_ok.1 hshape
  cases hm
  exact notXml_withTitle (Shape.notXml_denote shape hp)

/-- What is registered is one of the types, under its name in delimited form. -/
theorem exists_of_mem_registry
    (h : (name, p) ∈ (types.foldl (fun r (name, p) => r.register name p) r).registry) :
    (∃ key, (key, p) ∈ types ∧ name = Name.delimited key) ∨ (name, p) ∈ r.registry := by
  induction types generalizing r with
  | nil => exact .inr h
  | cons m types ih =>
    rcases ih h with ⟨key, hkey, hname⟩ | h
    · exact .inl ⟨key, List.mem_cons_of_mem _ hkey, hname⟩
    · rcases @Fields.mem_of_mem_set _ r.registry (Name.delimited m.1, m.2) _ h with he | h
      · cases he
        exact .inl ⟨m.1, List.mem_cons_self, rfl⟩
      · exact .inr h

/-- After the check every name in the patterns is registered. -/
theorem knows_of_checkReferences {patterns : List Pattern}
    (h : checkReferences patterns r = .ok ()) (hp : p ∈ patterns) :
    ∀ name ∈ p.references, r.Knows name := by
  intro name hn
  have hlooked := eq_ok_of_forM h (Pattern.mem_referencesOfAll.2 ⟨p, hp, hn⟩)
  obtain ⟨q, hq, -⟩ := map_eq_ok.1 hlooked
  exact ⟨q, hq⟩

/-- The root of a loaded document and what is registered for it are closed. -/
theorem closed_of_load (h : document.load = .ok contract) :
    contract.root.Closed contract.resolver ∧ contract.resolver.Closed := by
  obtain ⟨types, htypes, h⟩ := bind_eq_ok.1 h
  obtain ⟨root, hroot, h⟩ := bind_eq_ok.1 h
  obtain ⟨u, hcheck, h⟩ := bind_eq_ok.1 h
  obtain ⟨facts, -, h⟩ := bind_eq_ok.1 h
  cases h
  have hknows := fun {p} => knows_of_checkReferences (p := p) hcheck
  refine ⟨?_, fun name p hp => ?_⟩
  · have hroot := Shape.notXml_denote document.root hroot
    refine (Pattern.closed_of_knows hroot (hknows ?_)).congr rfl
    exact List.mem_append_right _ List.mem_cons_self
  · rcases exists_of_mem_registry hp with ⟨key, hkey, -⟩ | hnone
    · have hp := notXml_typePatterns htypes _ hkey
      refine (Pattern.closed_of_knows hp (hknows ?_)).congr rfl
      exact List.mem_append_left _ (List.mem_map.2 ⟨_, hkey, rfl⟩)
    · cases hnone

/-- The names that a loaded document registers are in delimited form, so they are found. -/
theorem knows_of_load (h : document.load = .ok contract)
    (hname : name ∈ contract.resolver.patternNames) : contract.resolver.Knows name := by
  obtain ⟨types, -, h⟩ := bind_eq_ok.1 h
  obtain ⟨root, -, h⟩ := bind_eq_ok.1 h
  obtain ⟨u, -, h⟩ := bind_eq_ok.1 h
  obtain ⟨facts, -, h⟩ := bind_eq_ok.1 h
  cases h
  obtain ⟨⟨name, p⟩, hm, rfl⟩ := List.mem_map.1 hname
  have hdelimited : Name.delimited name = name := by
    rcases exists_of_mem_registry hm with ⟨key, -, rfl⟩ | hnone
    · exact Name.delimited_delimited key
    · cases hnone
  unfold Resolver.Knows Resolver.getPattern
  rw [hdelimited]
  split
  · exact ⟨_, rfl⟩
  · next hnone => exact absurd hname (Fields.get?_eq_none.1 hnone)

end ContractDocument

end DataContract
