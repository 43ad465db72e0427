import DataContract.Proofs.Containment.Structures
import DataContract.Proofs.ObjectKeys
import DataContract.Proofs.Xml.Elements

/-!
# Containment of elements

Containment compares elements place by place: names, occurrences, attributes, children. A node is
matched in one pass that takes runs of child nodes. An element that contains another one accepts
the nodes of that (`Pattern.check_of_contains`), because the runs that the children of the one take
are runs for those of the other. What containment does not look at has to be assumed: it never asks
whether an element may be nil (`Pattern.nillable_contained`), and attributes are compared by names
from which one mark is taken.
-/

namespace DataContract

open Pattern (elements textPattern? ElementNode)

/-- Wherever both have an element, the attributes have the same names, which have no marks in them
and differ among the attributes of the second one, and the first one may be nil if the second one
may. -/
inductive XmlShape.Aligned : XmlShape Pattern → XmlShape Pattern → Prop where
  | intro {b s : XmlShape Pattern}
      (names : ∀ name, name ∈ b.attributes.map (fun m => Key.base m.1) ↔
        name ∈ s.attributes.map fun m => Key.base m.1)
      (unmarked : ∀ m ∈ b.attributes, Key.isOptional (Key.base m.1) = false)
      (distinct : (s.attributes.map fun m => Key.base m.1).Nodup)
      (nillable : s.nillable = true → b.nillable = true)
      (children : ∀ c d, (Pattern.xml c, Pattern.xml d) ∈ b.children.zip s.children → Aligned c d) :
      Aligned b s

namespace Engine

variable {mine theirs : Resolver} {e : Engine} {b s : XmlShape Pattern} {n : Nat} {text : String}
  {stack : TypeStack}

/-- A scalar reads on a budget what the scalars that it contains read on this budget. -/
theorem reads_of_encompasses {t u : Scalar} (h : u.encompasses t = .success)
    (ht : (ofBudget n).Reads theirs (.scalar t) text) :
    (ofBudget n).Reads mine (.scalar u) text := by
  obtain ⟨v, hv⟩ := ht
  cases n with
  | zero => cases hv
  | succ n =>
    have hv : Outcome.ofExcept (t.parse text) = .ok v := hv
    have hu := Scalar.parse_of_encompasses h (Outcome.ofExcept_eq_ok.1 hv)
    exact ⟨v, Outcome.ofExcept_eq_ok.2 hu⟩

/-- What a comparison of elements has found out. -/
structure Surrounds (e : Engine) (b s : XmlShape Pattern) (mine theirs : Resolver)
    (stack : TypeStack) : Prop where
  name : b.name = s.name
  occurrence : s.occurrence.exceeds b.occurrence = false
  attributes : ∀ m ∈ b.attributes,
    Succeeds (e.encompassesAttribute m.1 m.2 s.attributes mine theirs stack)
  length : b.children.length = s.children.length
  children : ∀ p q, (p, q) ∈ b.children.zip s.children →
    Succeeds (e.encompasses p q mine theirs stack)

/-- Comparing the parts of two elements succeeds only if every attribute does, and child by child
each of as many children. -/
theorem succeeds_encompassesParts (h : Succeeds (e.encompassesParts b s mine theirs stack)) :
    (∀ m ∈ b.attributes,
        Succeeds (e.encompassesAttribute m.1 m.2 s.attributes mine theirs stack)) ∧
      b.children.length = s.children.length ∧
      ∀ p q, (p, q) ∈ b.children.zip s.children →
        Succeeds (e.encompasses p q mine theirs stack) := by
  obtain ⟨attributes, hattributes, h⟩ := succeeds_bind.1 h
  dsimp only at h
  split at h
  · exact absurd (succeeds_some.1 h) (by simp)
  · next hlength =>
    obtain ⟨children, hchildren, h⟩ := succeeds_bind.1 h
    have hall : (MatchResult.all (attributes ++ [.all children])).isSuccess = true :=
      succeeds_some.1 h
    simp only [MatchResult.isSuccess_all, List.all_append, List.all_cons, List.all_nil,
      Bool.and_true, Bool.and_eq_true] at hall
    refine ⟨(all_isSuccess_iff hattributes).1 hall.1, not_not.1 hlength, fun p q hpq => ?_⟩
    exact succeeds_map_under.1 ((all_isSuccess_iff hchildren).1 hall.2 (p, q) hpq)

/-- A comparison of elements without types that succeeds has found out all that containment
needs. -/
theorem surrounds_of_encompasses (hb : b.typeRef = none) (hs : s.typeRef = none)
    (h : Succeeds (e.encompassesXml b (.xml s) mine theirs stack)) :
    e.Surrounds b s mine theirs stack := by
  unfold encompassesXml at h
  dsimp only at h
  split at h
  · exact absurd (succeeds_some.1 h) (by simp)
  · next hname =>
    split at h
    · exact absurd (succeeds_some.1 h) (by simp)
    · next hoccurrence =>
      have hpair : typePair? b s = none := by rw [typePair?, hb]
      rw [hpair] at h
      dsimp only at h
      rw [encompassesElement, XmlShape.effective_of_untyped hb,
        XmlShape.effective_of_untyped hs] at h
      obtain ⟨hattributes, hlength, hchildren⟩ := succeeds_encompassesParts h
      exact ⟨not_not.1 hname, Bool.eq_false_iff.2 hoccurrence, hattributes, hlength, hchildren⟩

/-- A comparison of elements on a budget compares their parts on a smaller one. -/
theorem exists_surrounds {k : Nat} (hb : b.typeRef = none) (hs : s.typeRef = none)
    (h : Succeeds ((ofBudget k).encompasses (.xml b) (.xml s) mine theirs stack)) :
    ∃ j, (ofBudget j).Surrounds b s mine theirs stack := by
  cases k with
  | zero => exact absurd h not_succeeds_none
  | succ k => exact ⟨k, surrounds_of_encompasses hb hs h⟩

/-! ## Attributes -/

/-- What a comparison has found out about an attribute that the other side has, too. -/
theorem succeeds_encompassesAttribute {key : String} {p : Pattern}
    {theirAttributes : List (String × Pattern)}
    (hnames : Pattern.keyNamed? theirAttributes (Key.base key) ≠ none)
    (h : Succeeds (e.encompassesAttribute key p theirAttributes mine theirs stack)) :
    ∃ theirKey q, Pattern.keyNamed? theirAttributes (Key.base key) = some (theirKey, q) ∧
      (Key.isOptional theirKey = true → Key.isOptional key = true) ∧
      Succeeds (e.encompasses p q mine theirs stack) := by
  unfold encompassesAttribute at h
  dsimp only at h
  rw [succeeds_map_under] at h
  split at h
  · next hnone => exact absurd hnone hnames
  · next theirKey q hsome =>
    split at h
    · exact absurd (succeeds_some.1 h) (by simp)
    · next hoptional => exact ⟨theirKey, q, hsome, fun ht => by simpa [ht] using hoptional, h⟩

/-- Attributes that fit an element fit another one that surrounds it. -/
theorem fitsAttributes_of_surrounds {k : Nat} {attributes : List (String × String)}
    (hb : b.Standalone) (hs : s.Standalone) (haligned : b.Aligned s)
    (hc : (ofBudget k).Surrounds b s mine theirs stack)
    (h : FitsAttributes s.attributes attributes ((ofBudget n).Reads theirs)) :
    FitsAttributes b.attributes attributes ((ofBudget n).Reads mine) := by
  obtain ⟨names, unmarked, distinct, -, -⟩ := haligned
  -- Every attribute has its counterpart on the other side.
  have hfound (m : String × Pattern) (hm : m ∈ b.attributes) :
      ∃ theirKey q, (theirKey, q) ∈ s.attributes ∧ Key.base theirKey = Key.base m.1 ∧
        (Key.isOptional theirKey = true → Key.isOptional m.1 = true) ∧
        Succeeds ((ofBudget k).encompasses m.2 q mine theirs stack) := by
    obtain ⟨⟨key, q⟩, hkey, hbase⟩ :=
      List.mem_map.1 ((names (Key.base m.1)).1 (List.mem_map_of_mem hm))
    have hne := Pattern.keyNamed?_base_ne_none hkey
    rw [show Key.base key = Key.base m.1 from hbase] at hne
    obtain ⟨theirKey, q, hsome, hoptional, hcontains⟩ :=
      succeeds_encompassesAttribute hne (hc.attributes m hm)
    exact ⟨theirKey, q, Fields.mem_of_get? (Pattern.keyNamed?_eq_some hsome).1,
      base_of_keyNamed? (unmarked m hm) hsome, hoptional, hcontains⟩
  refine ⟨fun name hname hnamespace => ?_, fun m hm hmandatory => ?_, fun m hm text htext => ?_⟩
  · obtain ⟨m, hm, hmname⟩ := Pattern.keyNamed?_ne_none_iff.1 (h.declared name hname hnamespace)
    obtain ⟨m', hm', hbase⟩ := List.mem_map.1 ((names (Key.base m.1)).2 (List.mem_map_of_mem hm))
    refine Pattern.keyNamed?_ne_none_iff.2 ⟨m', hm', ?_⟩
    rcases hmname with rfl | rfl
    · exact .inl hbase
    · -- The node may have an attribute that is written as the key is, with the mark.
      cases hmark : Key.isOptional m.1 with
      | false => exact .inl (hbase.trans (Key.base_of_mandatory hmark))
      | true =>
        obtain ⟨theirKey, q, hq, hkey, hoptional, -⟩ := hfound m' hm'
        obtain rfl : (theirKey, q) = m :=
          List.inj_on_of_nodup_map distinct hq hm (hkey.trans hbase)
        have hmark' : Key.isOptional m'.1 = true := hoptional hmark
        right
        calc
          m'.1 = Key.optional (Key.base m'.1) := (Key.optional_base hmark').symm
          _ = Key.optional (Key.base theirKey) := congrArg Key.optional hbase
          _ = theirKey := Key.optional_base hmark
  · obtain ⟨theirKey, q, hq, hbase, hoptional, -⟩ := hfound m hm
    have hmandatory : Key.isOptional theirKey = false := by
      by_contra ht
      rw [hoptional (Bool.not_eq_false _ ▸ ht)] at hmandatory
      cases hmandatory
    have hpresent : Key.base theirKey ∈ Fields.names attributes :=
      h.present (theirKey, q) hq hmandatory
    rwa [hbase] at hpresent
  · obtain ⟨theirKey, q, hq, hbase, -, hcontains⟩ := hfound m hm
    obtain ⟨u, hu⟩ := hb.scalars m hm
    obtain ⟨t, ht⟩ := hs.scalars _ hq
    obtain rfl : q = .scalar t := ht
    rw [hu] at hcontains ⊢
    rw [← hbase] at htext
    exact reads_of_encompasses (encompasses_of_succeeds_scalar hcontains)
      (h.texts (theirKey, .scalar t) hq text htext)

/-! ## Children -/

/-- Neither do elements contain scalars nor scalars elements. -/
theorem kinds_of_encompasses {k : Nat} {ok ok' : Scalar → Prop} {p q : Pattern}
    (hp : ElementNode ok p) (hq : ElementNode ok' q)
    (h : Succeeds ((ofBudget k).encompasses p q mine theirs stack)) :
    (∃ u t, p = .scalar u ∧ q = .scalar t ∧ u.encompasses t = .success) ∨
      ∃ c d, p = .xml c ∧ q = .xml d := by
  cases k with
  | zero => exact absurd h not_succeeds_none
  | succ k =>
    cases p with
    | scalar u =>
      cases q with
      | scalar t => exact .inl ⟨u, t, rfl, rfl, Option.some.inj h⟩
      | xml d => exact absurd (succeeds_some.1 h) (by simp [encompassesScalar, otherKind])
      | _ => exact hq.elim
    | xml c =>
      cases q with
      | scalar t => exact absurd (succeeds_some.1 h) (by simp [otherKind])
      | xml d => exact .inr ⟨c, d, rfl, rfl⟩
      | _ => exact hq.elim
    | _ => exact hp.elim

/-- Children that contain others place by place fit what these fit, if the elements among them take
the runs that the others take. -/
theorem fitsContent_of_surrounds {k : Nat} {ok ok' : Scalar → Prop} {values : List Value}
    (hb : (Pattern.xml b).Everywhere (ElementNode ok))
    (hs : (Pattern.xml s).Everywhere (ElementNode ok'))
    (hc : (ofBudget k).Surrounds b s mine theirs stack)
    (htakes : ∀ c d, (Pattern.xml c, Pattern.xml d) ∈ b.children.zip s.children → c.name = d.name ∧
      ∀ run, (ofBudget n).TakesRun theirs d run → (ofBudget n).TakesRun mine c run)
    (h : FitsContent s.children values ((ofBudget n).Reads theirs) ((ofBudget n).TakesRun theirs)) :
    FitsContent b.children values ((ofBudget n).Reads mine) ((ofBudget n).TakesRun mine) := by
  have hzip : List.Forall₂ (fun p q => (p, q) ∈ b.children.zip s.children) b.children s.children :=
    List.forall₂_iff_zip.2 ⟨hc.length, fun h => h⟩
  have hkinds (p q : Pattern) (hpq : (p, q) ∈ b.children.zip s.children) :=
    kinds_of_encompasses (hb.child (List.of_mem_zip hpq).1).here
      (hs.child (List.of_mem_zip hpq).2).here (hc.children p q hpq)
  unfold FitsContent at h
  cases htext : textPattern? s.children with
  | some q =>
    rw [htext] at h
    obtain ⟨hchildren, hxml⟩ := Pattern.eq_singleton_of_textPattern? htext
    obtain ⟨p, hp⟩ : ∃ p, b.children = [p] :=
      List.length_eq_one_iff.1 (hc.length.trans (by rw [hchildren]; rfl))
    rcases hkinds p q (by simp [hp, hchildren]) with ⟨u, t, rfl, rfl, hut⟩ | ⟨c, d, -, rfl⟩
    · rw [hp]
      exact reads_of_encompasses hut h
    · exact absurd rfl (hxml d)
  | none =>
    rw [htext] at h
    obtain ⟨hall, hruns⟩ := h
    have hall' (p : Pattern) (hp : p ∈ b.children) : ∃ shape, p = .xml shape := by
      obtain ⟨q, hq, hpq⟩ := exists_right_of_forall₂ hzip hp
      obtain ⟨d, rfl⟩ := hall q hq
      rcases hkinds p _ hpq with ⟨u, t, -, he, -⟩ | ⟨c, -, hc, -⟩
      · cases he
      · exact ⟨c, hc⟩
    refine (fitsContent_elements_iff hall').2 (hruns.forall₂ ?_)
    refine Pattern.forall₂_elements hzip fun p hp q hq hpq => ?_
    obtain ⟨c, rfl⟩ := hall' p hp
    obtain ⟨d, rfl⟩ := hall q hq
    exact ⟨c, d, rfl, rfl, htakes c d hpq⟩

/-- An element accepts on a budget the nodes that an element which it contains accepts on this
budget. -/
theorem succeeds_check_of_encompasses {k : Nat} {ok ok' : Scalar → Prop} {node : XmlNode}
    (hb : (Pattern.xml b).Everywhere (ElementNode ok))
    (hs : (Pattern.xml s).Everywhere (ElementNode ok')) (haligned : b.Aligned s)
    (hc : Succeeds ((ofBudget k).encompasses (.xml b) (.xml s) mine theirs stack))
    (ha : Succeeds ((ofBudget n).check (.xml s) node.toValue theirs)) :
    Succeeds ((ofBudget n).check (.xml b) node.toValue mine) := by
  induction n generalizing b s k node with
  | zero => exact absurd ha not_succeeds_none
  | succ n ih =>
    have hstandalone : b.Standalone := hb.here
    have hstandalone' : s.Standalone := hs.here
    obtain ⟨j, hsurrounds⟩ := exists_surrounds hstandalone.typeRef hstandalone'.typeRef hc
    have hfits := (Pattern.succeeds_check_element_iff hs).1 ha
    refine (Pattern.succeeds_check_element_iff hb).2
      ⟨hfits.name.trans hsurrounds.name.symm, ?_, ?_⟩
    · exact fitsAttributes_of_surrounds hstandalone hstandalone' haligned hsurrounds
        hfits.attributes
    · obtain ⟨-, -, -, nillable, children⟩ := haligned
      refine hfits.content.imp (fun h => ⟨nillable h.1, h.2⟩) fun hcontent => ?_
      refine fitsContent_of_surrounds hb hs hsurrounds (fun c d hcd => ?_) hcontent
      have hc := hb.child (List.of_mem_zip hcd).1
      have hd := hs.child (List.of_mem_zip hcd).2
      have hcontains := hsurrounds.children _ _ hcd
      obtain ⟨i, hchild⟩ := exists_surrounds hc.here.typeRef hd.here.typeRef hcontains
      refine ⟨hchild.name, fun run hrun => ⟨hrun.admits.of_not_exceeds hchild.occurrence, ?_⟩⟩
      exact fun node hnode => ih hc hd (children c d hcd) hcontains (hrun.accepted node hnode)

end Engine

namespace Pattern

variable {mine theirs : Resolver} {b s : XmlShape Pattern} {ok ok' : Scalar → Prop}

/-- An element accepts the nodes that are accepted by an element which it contains. -/
theorem check_of_contains (hb : (xml b).Everywhere (ElementNode ok))
    (hs : (xml s).Everywhere (ElementNode ok')) (haligned : b.Aligned s)
    (hc : (xml b).Contains (.xml s) mine theirs) {node : Engine.XmlNode}
    (ha : (xml s).Accepts node.toValue theirs) :
    (xml b).check node.toValue mine = some .success := by
  obtain ⟨k, hc⟩ := hc
  obtain ⟨n, ha⟩ := ha
  obtain ⟨m, hm⟩ := exists_check_of_element (r := mine) hb node
  exact Accepts.check_eq ⟨n, Engine.succeeds_check_of_encompasses hb hs haligned hc ha⟩ hm

/-- A region has perhaps a code, and any number of cities that are numbers or nil. -/
def region : XmlShape Pattern :=
  ⟨"region", [("code?", .string)], [.xml (textElement "city" (.number .any) .multiple true)], .once,
    false, none⟩

/-- A district has a code and perhaps a city that is a whole number. -/
def district : XmlShape Pattern :=
  ⟨"region", [("code", .string)],
    [.xml (textElement "city" (.number .anyInteger) .optional false)], .once, false, none⟩

/-- The bigger element of the example is built from the allowed forms only. -/
theorem region_everywhere : (xml region).Everywhere (ElementNode fun _ => True) := by
  refine .intro (⟨rfl, by simp [region, string], by decide⟩ : region.Standalone) ?_
  intro q hq
  obtain rfl | rfl : q = .string ∨ q = .xml (textElement "city" (.number .any) .multiple true) := by
    simpa [parts, region] using hq
  · exact .leaf trivial rfl
  · exact textElement_everywhere trivial

/-- The smaller element of the example is built from the allowed forms only. -/
theorem district_everywhere : (xml district).Everywhere (ElementNode fun _ => True) := by
  refine .intro (⟨rfl, by simp [district, string], by decide⟩ : district.Standalone) ?_
  intro q hq
  obtain rfl | rfl : q = .string ∨
      q = .xml (textElement "city" (.number .anyInteger) .optional false) := by
    simpa [parts, district] using hq
  · exact .leaf trivial rfl
  · exact textElement_everywhere trivial

/-- The elements of the example agree, at every depth, in what a comparison does not look at. -/
theorem region_aligned : region.Aligned district := by
  refine .intro (fun name => iff_of_eq (congrArg (name ∈ ·) (by decide))) (by decide) (by decide)
    (by decide) fun c d hcd => ?_
  obtain ⟨rfl, rfl⟩ : c = textElement "city" (.number .any) .multiple true ∧
      d = textElement "city" (.number .anyInteger) .optional false := by
    simpa [region, district] using hcd
  exact .intro (fun _ => Iff.rfl) nofun List.nodup_nil (fun _ => rfl) (by simp [textElement])

/-- A node of a district with a code and a city. -/
def north : Engine.XmlNode :=
  ⟨"region", [("code", "N")], [.xml "city" [] [.string "3"]]⟩

/-- The region contains the district, which accepts the node, and accepts it, too. -/
theorem region_check :
    (xml region).Contains (.xml district) .empty .empty ∧
      (xml district).Accepts north.toValue .empty ∧
      (xml region).check north.toValue .empty = some .success := by
  have hcontains : (xml region).Contains (.xml district) .empty .empty := ⟨3, rfl⟩
  have haccepts : (xml district).Accepts north.toValue .empty := ⟨4, rfl⟩
  exact ⟨hcontains, haccepts,
    check_of_contains region_everywhere district_everywhere region_aligned hcontains haccepts⟩

/-- A number as the text of an element contains one that may be nil, which accepts the node without
children that the number does not accept. -/
theorem nillable_contained :
    (xml (textElement "amount" (.number .any) .once false)).isCompatibleWith
        (xml (textElement "amount" (.number .any) .once true)) .empty .empty = some .success ∧
      (xml (textElement "amount" (.number .any) .once true)).check (.xml "amount" [] [])
        .empty = some .success ∧
      Fails ((xml (textElement "amount" (.number .any) .once false)).check (.xml "amount" [] [])
        .empty) :=
  ⟨rfl, rfl, _, rfl⟩

end Pattern

end DataContract
