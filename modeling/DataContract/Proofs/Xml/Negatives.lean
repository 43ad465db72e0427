import DataContract.Proofs.Negatives.Soundness
import DataContract.Proofs.Xml.Generation
import DataContract.Proofs.Xml.Texts

/-!
# Negatives of elements

A negative of an element makes one change to it (`Negatives.Change`). It leaves out a mandatory
attribute or an element that occurs once, puts something else in place of the text, or makes one
change to an element inside. An element rejects the nodes that are generated from its negatives
(`Pattern.fails_check_of_negative`), as long as there is something of the change to be seen in them.
There need not be anything (`Negatives.Hidden`): a changed element that is optional may be skipped
like the original, and an element that may be nil may be left without any nodes inside
(`Pattern.hidden_negatives_accepted`).
-/

namespace DataContract

open Pattern (elements textPattern? ElementNode UntypedNode)
open Engine (XmlNode Runs GeneratesNode GeneratesContent GeneratesRun FitsNode FitsContent TakesRun)

namespace Negatives

/-- The second pattern is the element with one change. -/
inductive Change : XmlShape Pattern → Pattern → Prop where
  | attributeOmitted {x : XmlShape Pattern} {m : String × Pattern} (declared : m ∈ x.attributes)
      (mandatory : Key.isOptional m.1 = false) :
      Change x (.xml { x with attributes := Fields.remove x.attributes m.1 })
  | textReplaced {x : XmlShape Pattern} {s : Scalar} {q : Pattern}
      (text : textPattern? x.children = some (.scalar s)) (simple : isSimple q = true)
      (unreadable : ∀ r v, q.Generates v r → s.Unreadable v.literal) :
      Change x (.xml { x with children := [q] })
  | childOmitted {x child : XmlShape Pattern} {before after : List Pattern}
      (split : x.children = before ++ .xml child :: after) (once : child.occurrence = .once) :
      Change x (.xml { x with children := before ++ after })
  | childChanged {x child : XmlShape Pattern} {before after : List Pattern} {q : Pattern}
      (split : x.children = before ++ .xml child :: after) (change : Change child q) :
      Change x (.xml { x with children := before ++ q :: after })

/-- The change need not show in what is generated: another attribute has the base name of the one
that is left out, the element may be nil and nothing that is left of it has to be generated, the
child that is changed may be skipped, or the change of the child need not show. -/
inductive Hidden (policy : OptionalKeys) : XmlShape Pattern → Pattern → Prop where
  | attributeOmitted {x : XmlShape Pattern} {key : String}
      (other : ∃ m ∈ Fields.remove x.attributes key, Key.base m.1 = Key.base key) :
      Hidden policy x (.xml { x with attributes := Fields.remove x.attributes key })
  | childOmitted {x child : XmlShape Pattern} {before after : List Pattern}
      (split : x.children = before ++ .xml child :: after) (nillable : x.nillable = true)
      (text : textPattern? (before ++ after) = none)
      (rest : ∀ shape ∈ elements (before ++ after), shape.Skippable policy) :
      Hidden policy x (.xml { x with children := before ++ after })
  | childSkipped {x child : XmlShape Pattern} {before after : List Pattern} {q : Pattern}
      (split : x.children = before ++ .xml child :: after) (change : Change child q)
      (skippable : child.Skippable policy) :
      Hidden policy x (.xml { x with children := before ++ q :: after })
  | childChanged {x child : XmlShape Pattern} {before after : List Pattern} {q : Pattern}
      (split : x.children = before ++ .xml child :: after) (hidden : Hidden policy child q) :
      Hidden policy x (.xml { x with children := before ++ q :: after })

section
variable {source : NegativeSource} {x : XmlShape Pattern} {q : Pattern} {row : Row} {r : Resolver}
  {n i : Nat}

/-! ## Every negative is a change -/

/-- A negative at a child leaves it out or has a negative of it in its place. -/
theorem exists_of_mem_child {p : Pattern} (hi : x.children[i]? = some p)
    (hq : q ∈ (child source x i p row r).toList) :
    ∃ element before after, x.children = before ++ .xml element :: after ∧
      (element.occurrence = .once ∧ q = .xml { x with children := before ++ after } ∨
        ∃ negative ∈ (source (.xml element) row r).toList,
          q = .xml { x with children := before ++ negative :: after }) := by
  obtain ⟨hlt, rfl⟩ := List.getElem?_eq_some_iff.1 hi
  have hsplit : x.children = x.children.take i ++ x.children[i] :: x.children.drop (i + 1) := by
    rw [← List.drop_eq_getElem_cons hlt, List.take_append_drop]
  unfold child at hq
  split at hq
  · next element helement =>
    rw [helement] at hsplit
    refine ⟨element, _, _, hsplit, ?_⟩
    rcases LazyList.mem_toList_append hq with hq | hq
    · rw [LazyList.toList_ofList, List.eraseIdx_eq_take_drop_succ] at hq
      split at hq
      · next honce => exact .inl ⟨honce, List.mem_singleton.1 hq⟩
      · cases hq
    · obtain ⟨negative, hnegative, rfl⟩ := LazyList.mem_toList_map hq
      rw [List.set_eq_take_cons_drop _ hlt]
      exact .inr ⟨negative, helement ▸ hnegative, rfl⟩
  · cases hq

/-- The negatives of an element that refers to no type are those of its parts. -/
theorem xmlParts_of_untyped (htype : x.typeRef = none) : xmlParts source x row r =
    (LazyList.ofList ((x.attributes.filter fun (key, _) => !Key.isOptional key).map fun (key, _) =>
      .xml { x with attributes := Fields.remove x.attributes key })).append fun _ =>
      match textPattern? x.children with
      | some p => (text source p row r).map fun negative => .xml { x with children := [negative] }
      | none =>
        (LazyList.ofList x.children.zipIdx).flatMap fun (p, i) => child source x i p row r := by
  cases x
  cases htype
  rfl

/-- The negatives of the parts of an element are changes of it if those of its children are. -/
theorem change_of_mem_xmlParts
    (hx : (Pattern.xml x).Everywhere (ElementNode Scalar.IsNumberOrBoolean))
    (hchildren : ∀ element q, .xml element ∈ x.children →
      q ∈ (ofBudget n (.xml element) row r).toList → Change element q)
    (hq : q ∈ (xmlParts (ofBudget n) x row r).toList) : Change x q := by
  rw [xmlParts_of_untyped hx.here.typeRef] at hq
  rcases LazyList.mem_toList_append hq with hq | hq
  · rw [LazyList.toList_ofList] at hq
    obtain ⟨m, hm, rfl⟩ := List.mem_map.1 hq
    obtain ⟨hm, hmandatory⟩ := List.mem_filter.1 hm
    exact .attributeOmitted hm (by simpa using hmandatory)
  · split at hq
    · next p hp =>
      obtain ⟨s, rfl, hs⟩ :=
        Pattern.exists_scalar_of_textPattern? (fun p hp => (hx.child hp).here) hp
      obtain ⟨negative, hnegative, rfl⟩ := LazyList.mem_toList_map hq
      obtain ⟨hsimple, hunreadable⟩ := unreadable_of_mem_text hs hnegative
      exact .textReplaced hp hsimple hunreadable
    · obtain ⟨⟨p, i⟩, hp, hq⟩ := LazyList.mem_toList_flatMap hq
      rw [LazyList.toList_ofList] at hp
      obtain ⟨element, before, after, hsplit, ⟨honce, rfl⟩ | ⟨negative, hnegative, rfl⟩⟩ :=
        exists_of_mem_child (List.mk_mem_zipIdx_iff_getElem?.1 hp) hq
      · exact .childOmitted hsplit honce
      · have hmem : .xml element ∈ x.children := hsplit ▸ List.mem_append_cons_self
        exact .childChanged hsplit (hchildren element negative hmem hnegative)

/-- Every negative of an element is a change of it. -/
theorem change_of_mem (hx : (Pattern.xml x).Everywhere (ElementNode Scalar.IsNumberOrBoolean))
    (hq : q ∈ (ofBudget n (.xml x) row r).toList) : Change x q := by
  induction n generalizing x q r with
  | zero => cases hq
  | succ n ih =>
    have hq : q ∈ (xml (ofBudget n) x row r).toList := hq
    rw [xml, hx.here.typeRef] at hq
    exact change_of_mem_xmlParts hx (fun element q hmem hq => ih (hx.child hmem) hq) hq

end

/-! ## What a change leaves as it is -/

section
variable {x y child : XmlShape Pattern} {q : Pattern} {before after : List Pattern}
  {ok : Scalar → Prop}

/-- A changed element is an element of the same name and occurrence. -/
theorem Change.exists_xml (h : Change x q) :
    ∃ y : XmlShape Pattern, q = .xml y ∧ y.name = x.name ∧ y.occurrence = x.occurrence := by
  cases h <;> exact ⟨_, rfl, rfl, rfl⟩

/-- A standalone element refers to no type. -/
theorem untyped_of_elements (h : (Pattern.xml x).Everywhere (ElementNode ok)) :
    (Pattern.xml x).Everywhere UntypedNode :=
  h.imp fun p hp => by
    cases p with
    | scalar => trivial
    | xml => exact hp.typeRef
    | _ => exact hp.elim

/-- No element refers to a type where attributes are taken out and the children refer to none. -/
theorem untyped_of_children (hx : (Pattern.xml x).Everywhere UntypedNode) (htype : y.typeRef = none)
    (hattributes : y.attributes.Sublist x.attributes)
    (hchildren : ∀ p ∈ y.children, p.Everywhere UntypedNode) :
    (Pattern.xml y).Everywhere UntypedNode := by
  refine .intro htype fun p hp => ?_
  rcases List.mem_append.1 hp with hp | hp
  · exact hx.part (List.mem_append_left _ ((hattributes.map _).mem hp))
  · exact hchildren p hp

/-- Neither does a changed element refer to a type if the original does not. -/
theorem Change.untyped (h : Change x q) (hx : (Pattern.xml x).Everywhere UntypedNode) :
    q.Everywhere UntypedNode := by
  induction h with
  | attributeOmitted =>
    exact untyped_of_children hx hx.here (Fields.remove_sublist _ _) fun p => hx.child
  | textReplaced _ hsimple _ =>
    refine untyped_of_children hx hx.here (.refl _) fun p hp => ?_
    obtain rfl := List.mem_singleton.1 hp
    cases p with
    | scalar | exact => exact .leaf trivial rfl
    | _ => cases hsimple
  | childOmitted hsplit =>
    refine untyped_of_children hx hx.here (.refl _) fun p hp => hx.child ?_
    rw [hsplit]
    exact ((List.sublist_cons_self _ _).append_left _).mem hp
  | @childChanged x element before after q hsplit _ ih =>
    have hchild (p : Pattern) (hp : p ∈ before ++ .xml element :: after) :
        p.Everywhere UntypedNode := hx.child (hsplit ▸ hp)
    refine untyped_of_children hx hx.here (.refl _) fun p hp => ?_
    rcases List.mem_append.1 hp with hp | hp
    · exact hchild p (List.mem_append_left _ hp)
    · rcases List.mem_cons.1 hp with rfl | hp
      · exact ih (hchild _ List.mem_append_cons_self)
      · exact hchild p (List.mem_append_right _ (List.mem_cons_of_mem _ hp))

end

/-! ## A change that shows is rejected -/

section
variable {x y child : XmlShape Pattern} {q : Pattern} {before after children : List Pattern}
  {node : XmlNode} {values : List Value} {r : Resolver} {reads : Pattern → String → Prop}
  {takes : XmlShape Pattern → List XmlNode → Prop}

/-- An element with a child element is no element of text. -/
theorem textPattern?_of_mem (h : .xml child ∈ children) : textPattern? children = none := by
  cases htext : textPattern? children with
  | none => rfl
  | some p =>
    obtain ⟨rfl, hxml⟩ := Pattern.eq_singleton_of_textPattern? htext
    exact absurd (List.mem_singleton.1 h).symm (hxml child)

/-- Among elements the content is made of runs. -/
theorem runs_of_fitsContent (h : FitsContent children values reads takes)
    (hchild : .xml child ∈ children) :
    (∀ p ∈ children, ∃ shape, p = .xml shape) ∧
      Runs takes (elements children) (Engine.elementsOf values) := by
  unfold FitsContent at h
  rwa [textPattern?_of_mem hchild] at h

/-- A text that is not read does not fit an element. -/
theorem not_fits_of_unreadable {s : Scalar} {text : String} {n : Nat}
    (htext : textPattern? x.children = some (.scalar s)) (hunreadable : s.Unreadable text)
    (hvalues : node.children = [.string text]) :
    ¬ FitsNode x node ((Engine.ofBudget n).Reads r) takes := by
  intro h
  rcases h.content with ⟨-, hblank⟩ | hcontent
  · rw [hvalues] at hblank
    have hblank : Text.isAllBlank text = true := by simpa [Engine.isBlankText] using hblank
    rw [hunreadable.notBlank] at hblank
    cases hblank
  · unfold FitsContent at hcontent
    rw [htext, hvalues] at hcontent
    have hread : (Engine.ofBudget n).Reads r (.scalar s) (Text.trim text) := by
      simpa [Value.textContent] using hcontent
    obtain ⟨v, hv⟩ := Pattern.reads_scalar ⟨n, hread⟩
    exact hunreadable.refused v hv

/-- No other element has the name of a child. -/
theorem names_of_split (hnames : ((elements x.children).map (·.name)).Nodup)
    (hsplit : x.children = before ++ .xml child :: after) :
    child.name ∉ (elements (before ++ after)).map (·.name) ∧
      ((elements (before ++ after)).map (·.name)).Nodup := by
  rw [hsplit, Pattern.elements_append, Pattern.elements_xml_cons, List.map_append, List.map_cons,
    List.nodup_middle, List.nodup_cons] at hnames
  rwa [Pattern.elements_append, List.map_append]

/-- Where blank content is generated there is no text, and no element has to be there. -/
theorem skippable_of_blank (hchildren : ∀ p ∈ children, ElementNode Scalar.IsNumberOrBoolean p)
    (hnames : ((elements children).map (·.name)).Nodup)
    (hgenerated : GeneratesContent r children values)
    (hblank : values.all Engine.isBlankText = true) :
    textPattern? children = none ∧
      ∀ shape ∈ elements children, shape.Skippable r.config.optionalKeys := by
  unfold GeneratesContent at hgenerated
  cases htext : textPattern? children with
  | some p =>
    rw [htext] at hgenerated
    obtain ⟨w, hw, hvalues⟩ := hgenerated
    obtain ⟨s, rfl, hs⟩ := Pattern.exists_scalar_of_textPattern? hchildren htext
    obtain ⟨c, rfl⟩ := Pattern.exists_of_generates_scalar hw
    have hblank : Text.isAllBlank (s.generate c).literal = true := by
      simpa [hvalues, Engine.isBlankText] using hblank
    rw [Scalar.isAllBlank_literal_generate hs] at hblank
    cases hblank
  | none =>
    rw [htext] at hgenerated
    obtain ⟨nodes, hvalues, hruns⟩ := hgenerated
    obtain rfl := Engine.eq_nil_of_all_isBlankText (hvalues ▸ hblank)
    refine ⟨rfl, fun shape hshape => ?_⟩
    by_contra hskippable
    exact (hruns.filter hnames hshape).nonempty hskippable rfl

/-- A node of the name of a child does not come from the other children. -/
theorem name_ne_of_omitted (hall : ∀ p ∈ before ++ after, ∃ shape, p = .xml shape)
    (hother : child.name ∉ (elements (before ++ after)).map (·.name))
    (hgenerated : GeneratesContent r (before ++ after) values) {inner : XmlNode}
    (hinner : inner ∈ Engine.elementsOf values) : inner.name ≠ child.name := by
  intro hname
  unfold GeneratesContent at hgenerated
  cases htext : textPattern? (before ++ after) with
  | some p =>
    obtain ⟨hchildren, hxml⟩ := Pattern.eq_singleton_of_textPattern? htext
    obtain ⟨shape, hp⟩ := hall p (hchildren ▸ List.mem_singleton_self p)
    exact absurd hp (hxml shape)
  | none =>
    rw [htext] at hgenerated
    obtain ⟨nodes, hvalues, hruns⟩ := hgenerated
    rw [hvalues, Engine.elementsOf_map_toValue] at hinner
    obtain ⟨shape, hshape, hsame⟩ := hruns.exists_of_mem hinner
    have hchild : shape.name = child.name := hsame.trans hname
    exact absurd (hchild ▸ List.mem_map_of_mem hshape) hother

/-- If an element fits without a child that has to be there, it may be nil and nothing that is left
of it has to be generated. -/
theorem hidden_of_fits (hx : (Pattern.xml x).Everywhere (ElementNode Scalar.IsNumberOrBoolean))
    (hsplit : x.children = before ++ .xml child :: after) (honce : child.occurrence = .once)
    (hgenerated : GeneratesContent r (before ++ after) node.children)
    (htakes : ∀ run, takes child run → child.occurrence.Admits run.length)
    (h : FitsNode x node reads takes) :
    Hidden r.config.optionalKeys x (.xml { x with children := before ++ after }) := by
  have hmem : .xml child ∈ x.children := hsplit ▸ List.mem_append_cons_self
  have hsub : (before ++ after).Sublist x.children :=
    hsplit ▸ (List.sublist_cons_self _ _).append_left _
  obtain ⟨hother, hnames⟩ := names_of_split hx.here.names hsplit
  rcases h.content with ⟨hnil, hblank⟩ | hcontent
  · obtain ⟨htext, hrest⟩ := skippable_of_blank (fun p hp => (hx.child (hsub.mem hp)).here) hnames
      hgenerated hblank
    exact .childOmitted hsplit hnil htext hrest
  · -- the run of the child has one node, which is not generated
    obtain ⟨hall, hruns⟩ := runs_of_fitsContent hcontent hmem
    have hadmits := htakes _ (hruns.filter hx.here.names (Pattern.mem_elements.2 hmem))
    rw [honce] at hadmits
    obtain ⟨inner, hinner⟩ := List.length_eq_one_iff.1 hadmits
    obtain ⟨hinner, hname⟩ := List.mem_filter.1 (hinner ▸ List.mem_singleton_self inner)
    have hne := name_ne_of_omitted (fun p hp => hall p (hsub.mem hp)) hother hgenerated hinner
    exact absurd (by simpa using hname) hne

/-- Where a child is changed that may not be skipped, a node of the changed child is taken for the
original. -/
theorem exists_of_fits (hx : (Pattern.xml x).Everywhere (ElementNode Scalar.IsNumberOrBoolean))
    (hsplit : x.children = before ++ .xml child :: after) (hname : y.name = child.name)
    (hskippable : ¬ y.Skippable r.config.optionalKeys)
    (hgenerated : GeneratesContent r (before ++ .xml y :: after) node.children)
    (h : FitsNode x node reads takes) :
    ∃ run, takes child run ∧ ∃ inner ∈ run, (Pattern.xml y).Generates inner.toValue r := by
  have hmem : .xml child ∈ x.children := hsplit ▸ List.mem_append_cons_self
  have hmem' : .xml y ∈ before ++ .xml y :: after := List.mem_append_cons_self
  have hsame : (elements (before ++ .xml y :: after)).map (·.name) =
      (elements x.children).map (·.name) := by
    simp [hsplit, hname]
  unfold GeneratesContent at hgenerated
  rw [textPattern?_of_mem hmem'] at hgenerated
  obtain ⟨nodes, hvalues, hruns⟩ := hgenerated
  have hrun := hruns.filter (hsame ▸ hx.here.names) (Pattern.mem_elements.2 hmem')
  have hne := hrun.nonempty hskippable
  rcases h.content with ⟨-, hblank⟩ | hcontent
  · obtain rfl := Engine.eq_nil_of_all_isBlankText (hvalues ▸ hblank)
    exact absurd rfl hne
  · obtain ⟨-, htaken⟩ := runs_of_fitsContent hcontent hmem
    have htaken := htaken.filter hx.here.names (Pattern.mem_elements.2 hmem)
    rw [hvalues, Engine.elementsOf_map_toValue, ← hname] at htaken
    obtain ⟨inner, hinner⟩ := List.exists_mem_of_ne_nil _ hne
    exact ⟨_, htaken, inner, hinner, hrun.generates inner hinner⟩

/-- A value of a change that the element accepts is a node of the change that fits the element. -/
theorem exists_fits_of_accepts
    (hx : (Pattern.xml x).Everywhere (ElementNode Scalar.IsNumberOrBoolean))
    (h : Change x (.xml y)) {v : Value} (hv : (Pattern.xml y).Generates v r)
    (ha : (Pattern.xml x).Accepts v r) :
    ∃ (node : XmlNode) (n : Nat), GeneratesNode r y node ∧
      FitsNode x node ((Engine.ofBudget n).Reads r) ((Engine.ofBudget n).TakesRun r) := by
  obtain ⟨node, rfl, hnode⟩ :=
    Pattern.exists_node_of_generates (h.untyped (untyped_of_elements hx)) hv
  obtain ⟨n, hn⟩ := ha
  cases n with
  | zero => exact absurd hn not_succeeds_none
  | succ n => exact ⟨node, n, hnode, (Pattern.succeeds_check_element_iff hx).1 hn⟩

/-- An element does not accept what is generated from a change of it that shows. -/
theorem not_accepts_of_change
    (hx : (Pattern.xml x).Everywhere (ElementNode Scalar.IsNumberOrBoolean)) (h : Change x q)
    (hhidden : ¬ Hidden r.config.optionalKeys x q) {v : Value} (hv : q.Generates v r) :
    ¬ (Pattern.xml x).Accepts v r := by
  intro ha
  induction h generalizing v with
  | @attributeOmitted x m hdeclared hmandatory =>
    obtain ⟨node, n, hnode, hfits⟩ :=
      exists_fits_of_accepts hx (.attributeOmitted hdeclared hmandatory) hv ha
    have hpresent := hfits.attributes.present m hdeclared hmandatory
    exact hhidden (.attributeOmitted (hnode.attributes _ hpresent))
  | @textReplaced x s q htext hsimple hunreadable =>
    obtain ⟨node, n, hnode, hfits⟩ :=
      exists_fits_of_accepts hx (.textReplaced htext hsimple hunreadable) hv ha
    obtain ⟨w, hw, hvalues⟩ : ∃ w, q.Generates w r ∧ node.children = [.string w.literal] := by
      have hcontent := hnode.content
      cases q with
      | scalar | exact => exact hcontent
      | _ => cases hsimple
    exact not_fits_of_unreadable htext (hunreadable r w hw) hvalues hfits
  | childOmitted hsplit honce =>
    obtain ⟨node, n, hnode, hfits⟩ :=
      exists_fits_of_accepts hx (.childOmitted hsplit honce) hv ha
    exact hhidden (hidden_of_fits hx hsplit honce hnode.content (fun run hrun => hrun.admits) hfits)
  | @childChanged x child before after q hsplit hchange ih =>
    obtain ⟨node, n, hnode, hfits⟩ :=
      exists_fits_of_accepts hx (.childChanged hsplit hchange) hv ha
    obtain ⟨y, rfl, hname, hoccurrence⟩ := hchange.exists_xml
    have hskippable : ¬ y.Skippable r.config.optionalKeys := by
      rintro ⟨hoptional, hpolicy⟩
      exact hhidden (.childSkipped hsplit hchange ⟨hoccurrence ▸ hoptional, hpolicy⟩)
    obtain ⟨run, hrun, inner, hinner, hgenerates⟩ :=
      exists_of_fits hx hsplit hname hskippable hnode.content hfits
    refine ih (hx.child (hsplit ▸ List.mem_append_cons_self)) (fun hhidden' => ?_) hgenerates
      ⟨n, hrun.accepted inner hinner⟩
    exact hhidden (.childChanged hsplit hhidden')

end

end Negatives

namespace Pattern

variable {x : XmlShape Pattern} {q : Pattern} {row : Row} {r : Resolver} {v : Value}

/-- An element of numbers and booleans rejects what its negatives generate, unless the one change
that a negative makes is hidden. -/
theorem fails_check_of_negative (hx : (xml x).Everywhere (ElementNode Scalar.IsNumberOrBoolean))
    (hq : (xml x).HasNegative row r q) (hv : q.Generates v r)
    (hhidden : ¬ Negatives.Hidden r.config.optionalKeys x q) : Fails ((xml x).check v r) := by
  obtain ⟨n, hq⟩ := hq
  have hchange := Negatives.change_of_mem hx hq
  have hnot := Negatives.not_accepts_of_change hx hchange hhidden hv
  obtain ⟨y, rfl, -, -⟩ := hchange.exists_xml
  obtain ⟨node, rfl, -⟩ :=
    exists_node_of_generates (hchange.untyped (Negatives.untyped_of_elements hx)) hv
  obtain ⟨m, hm⟩ := exists_check_of_element (r := r) hx node
  exact (succeeds_or_fails hm).resolve_left fun hsucceeds => hnot ⟨_, hsucceeds⟩

/-- An order has a number, its total, and perhaps a sign that it is a gift. -/
def order : XmlShape Pattern :=
  ⟨"order", [("number", .number)],
    [.xml (textElement "total" (.number .any) .once false),
      .xml (textElement "gift" .boolean .optional true)], .once, false, none⟩

/-- The negative of an order where a number stands in place of the sign. -/
def orderNegative : Pattern :=
  .xml { order with children :=
    [.xml (textElement "total" (.number .any) .once false),
      .xml { textElement "gift" .boolean .optional true with children := [.number] }] }

/-- The element of the example is built from the allowed forms only. -/
theorem order_everywhere : (xml order).Everywhere (ElementNode Scalar.IsNumberOrBoolean) := by
  refine .intro (⟨rfl, by simp [order, number], by decide⟩ : order.Standalone) fun q hq => ?_
  obtain rfl | rfl | rfl : q = .number ∨ q = .xml (textElement "total" (.number .any) .once false) ∨
      q = .xml (textElement "gift" .boolean .optional true) := by
    simpa [parts, order] using hq
  · exact .leaf trivial rfl
  · exact textElement_everywhere trivial
  · exact textElement_everywhere trivial

/-- In an element with text and no attributes no change is hidden. -/
theorem not_hidden_textElement {policy : OptionalKeys} {name : String} {s : Scalar}
    {occurrence : Occurrence} {nillable : Bool} :
    ¬ Negatives.Hidden policy (textElement name s occurrence nillable) q := by
  intro h
  generalize hx : textElement name s occurrence nillable = x at h
  have hsplit {before after : List Pattern} {child : XmlShape Pattern} :
      x.children ≠ before ++ .xml child :: after := by
    rintro he
    have hmem : .xml child ∈ [Pattern.scalar s] := by
      rw [show [Pattern.scalar s] = x.children from hx ▸ rfl, he]
      exact List.mem_append_cons_self
    simp at hmem
  cases h with
  | attributeOmitted other =>
    obtain ⟨m, hm, -⟩ := other
    subst hx
    cases hm
  | childOmitted split => exact hsplit split
  | childSkipped split => exact hsplit split
  | childChanged split => exact hsplit split

/-- Where all optional parts are generated it shows that the sign is no boolean. -/
theorem order_not_hidden : ¬ Negatives.Hidden .all order orderNegative := by
  intro h
  generalize hx : order = x at h
  generalize hq : orderNegative = q at h
  cases h with
  | attributeOmitted =>
    subst hx
    simp [orderNegative, order, textElement, number] at hq
  | @childOmitted _ child before after split =>
    have hchildren : orderNegative.parts = order.attributes.map (·.2) ++ (before ++ after) := by
      rw [hq, hx]
      rfl
    have hlength := congrArg List.length hchildren
    have hlength' := congrArg List.length (hx ▸ split)
    simp [orderNegative, order, parts] at hlength hlength'
    omega
  | childSkipped _ _ skippable => exact skippable.2 rfl
  | @childChanged _ child before after _ split hidden =>
    have hmem : .xml child ∈ order.children := hx ▸ split ▸ List.mem_append_cons_self
    obtain rfl | rfl : child = textElement "total" (.number .any) .once false ∨
        child = textElement "gift" .boolean .optional true := by
      simpa [order] using hmem
    · exact not_hidden_textElement hidden
    · exact not_hidden_textElement hidden

/-- An order that is generated from the negative. -/
def strangeOrder : Value :=
  .xml "order" [("number", "1")] [.xml "total" [] [.string "1"], .xml "gift" [] [.string "1"]]

/-- The order with a number in place of the sign is rejected. -/
theorem strangeOrder_fails_check :
    (xml order).HasNegative .empty (Resolver.empty.withOptionalKeys .all) orderNegative ∧
      orderNegative.Generates strangeOrder (Resolver.empty.withOptionalKeys .all) ∧
      Fails ((xml order).check strangeOrder (Resolver.empty.withOptionalKeys .all)) := by
  have hnegative : (xml order).HasNegative .empty (Resolver.empty.withOptionalKeys .all)
      orderNegative := ⟨4, List.mem_of_getElem? (i := 4) rfl⟩
  have hgenerates : orderNegative.Generates strangeOrder
      (Resolver.empty.withOptionalKeys .all) := ⟨4, default, rfl⟩
  exact ⟨hnegative, hgenerates,
    fails_check_of_negative order_everywhere hnegative hgenerates order_not_hidden⟩

/-- An account has perhaps a balance. -/
def account : XmlShape Pattern :=
  ⟨"account", [], [.xml (textElement "balance" (.number .any) .optional false)], .once, false, none⟩

/-- The negative of an account with a balance that is a boolean. -/
def accountNegative : Pattern :=
  .xml { account with children :=
    [.xml { textElement "balance" (.number .any) .optional false with children := [.boolean] }] }

/-- A wallet has a balance, or it is nil. -/
def wallet : XmlShape Pattern :=
  ⟨"wallet", [], [.xml (textElement "balance" (.number .any) .once false)], .once, true, none⟩

/-- The negative of a wallet without a balance. -/
def walletNegative : Pattern :=
  .xml { wallet with children := [] }

/-- With hidden changes an element may accept what its negatives generate: no node is generated for
the balance of the account, and the wallet without its balance is nil. -/
theorem hidden_negatives_accepted :
    ((xml account).HasNegative .empty (Resolver.empty.withOptionalKeys .none) accountNegative ∧
      accountNegative.Generates (.xml "account" [] []) (Resolver.empty.withOptionalKeys .none) ∧
      (xml account).check (.xml "account" [] []) (Resolver.empty.withOptionalKeys .none) =
        some .success) ∧
    (xml wallet).HasNegative .empty .empty walletNegative ∧
      walletNegative.Generates (.xml "wallet" [] []) .empty ∧
      (xml wallet).check (.xml "wallet" [] []) .empty = some .success :=
  ⟨⟨⟨4, List.mem_of_getElem? (i := 0) rfl⟩, ⟨4, default, rfl⟩, rfl⟩,
    ⟨4, List.mem_of_getElem? (i := 0) rfl⟩, ⟨4, default, rfl⟩, rfl⟩

end Pattern

end DataContract
