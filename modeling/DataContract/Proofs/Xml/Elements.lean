import DataContract.Proofs.Everywhere
import DataContract.Proofs.Termination.Budget
import DataContract.Proofs.Xml.Runs

/-!
# One layer of matching elements

`Engine.FitsNode` says what it takes for a node to have the shape of an element that refers to no
type, when it is known which texts the patterns of attributes and text read and which runs the
children take. A match against such an element succeeds exactly if the node has its shape
(`Engine.succeeds_checkXml_iff`). Where scalars are all there is besides elements, the match ends as
soon as the budget is as big as the element (`Pattern.exists_check_element`).
-/

namespace DataContract

open Pattern (elements textPattern?)

/-- An element that is understood by itself: it refers to no type, its attributes are scalars, and
its child elements are told apart by their names. -/
structure XmlShape.Standalone (shape : XmlShape Pattern) : Prop where
  typeRef : shape.typeRef = none
  scalars : ∀ m ∈ shape.attributes, ∃ s, m.2 = .scalar s
  names : ((elements shape.children).map (·.name)).Nodup

/-- The element itself is what matching looks at. -/
theorem XmlShape.effective_of_untyped {shape : XmlShape Pattern} (h : shape.typeRef = none)
    (r : Resolver) : shape.effective r = .ok shape := by
  rw [effective, expand, h]

namespace Pattern

/-- A standalone element, or a scalar of some kind for texts. -/
def ElementNode (ok : Scalar → Prop) : Pattern → Prop
  | .scalar s => ok s
  | .xml shape => shape.Standalone
  | _ => False

variable {ok : Scalar → Prop} {p : Pattern} {shape : XmlShape Pattern}

/-- What holds throughout an element holds throughout its children. -/
theorem Everywhere.child {ok : Pattern → Prop} (h : (xml shape).Everywhere ok)
    (hp : p ∈ shape.children) : p.Everywhere ok :=
  h.part (List.mem_append_right _ hp)

/-- A standalone element has no child of any kind at its end. -/
theorem anything_notMem (h : (xml shape).Everywhere (ElementNode ok)) :
    .anything ∉ shape.children :=
  fun hany => (h.child hany).here

/-- The text of a standalone element is a scalar. -/
theorem exists_scalar_of_textPattern? {children : List Pattern}
    (h : ∀ p ∈ children, ElementNode ok p) (hp : textPattern? children = some p) :
    ∃ s, p = .scalar s ∧ ok s := by
  obtain ⟨rfl, hxml⟩ := eq_singleton_of_textPattern? hp
  have hnode := h p List.mem_cons_self
  cases p with
  | scalar s => exact ⟨s, rfl, hnode⟩
  | xml shape => exact absurd rfl (hxml shape)
  | _ => exact hnode.elim

end Pattern

namespace Engine

variable {e : Engine} {r : Resolver} {shape : XmlShape Pattern} {node : XmlNode}

/-- The attributes are declared but for namespaces, mandatory ones are there, and the texts of
declared ones are read. -/
structure FitsAttributes (patterns : List (String × Pattern)) (attributes : List (String × String))
    (reads : Pattern → String → Prop) : Prop where
  declared : ∀ name ∈ Fields.names attributes, isNamespaceAttribute name = false →
    Pattern.keyNamed? patterns name ≠ none
  present : ∀ m ∈ patterns, Key.isOptional m.1 = false → Key.base m.1 ∈ Fields.names attributes
  texts : ∀ m ∈ patterns, ∀ text, Fields.get? attributes (Key.base m.1) = some text →
    reads m.2 text

/-- The children are text that is read, or runs of nodes for the elements. -/
def FitsContent (children : List Pattern) (values : List Value) (reads : Pattern → String → Prop)
    (takes : XmlShape Pattern → List XmlNode → Prop) : Prop :=
  match textPattern? children with
  | some p => reads p (Text.trim (Value.textContent values))
  | none => (∀ p ∈ children, ∃ shape, p = .xml shape) ∧
      Runs takes (elements children) (elementsOf values)

/-- Among elements there is no text. -/
theorem fitsContent_elements_iff {children : List Pattern} {values : List Value}
    {reads : Pattern → String → Prop} {takes : XmlShape Pattern → List XmlNode → Prop}
    (h : ∀ p ∈ children, ∃ shape, p = .xml shape) : FitsContent children values reads takes ↔
      Runs takes (elements children) (elementsOf values) := by
  have htext : textPattern? children = none := by
    cases hp : textPattern? children with
    | none => rfl
    | some p =>
      obtain ⟨rfl, hxml⟩ := Pattern.eq_singleton_of_textPattern? hp
      obtain ⟨shape, rfl⟩ := h p List.mem_cons_self
      exact absurd rfl (hxml shape)
  unfold FitsContent
  rw [htext]
  exact and_iff_right h

/-- The node is of the name of the element with fitting attributes, and is nil where it may be or
has fitting content. -/
structure FitsNode (shape : XmlShape Pattern) (node : XmlNode) (reads : Pattern → String → Prop)
    (takes : XmlShape Pattern → List XmlNode → Prop) : Prop where
  name : node.name = shape.name
  attributes : FitsAttributes shape.attributes node.attributes reads
  content : (shape.nillable = true ∧ node.children.all isBlankText = true) ∨
    FitsContent shape.children node.children reads takes

/-! ## Attributes -/

section
variable {key text : String} {p : Pattern} {attributes : List (String × String)}

/-- A result that tells whether a text is read. -/
theorem succeeds_reads_iff {message : MatchResult} (hm : message.isSuccess = false) :
    Succeeds ((e.reads p text r).map fun ok => if ok then .success else message) ↔
      e.Reads r p text := by
  unfold reads Reads
  cases e.parse p text r <;> simp [hm]

/-- An attribute is matched if it is there or optional, and its text is read. -/
theorem succeeds_checkAttribute_iff : Succeeds (e.checkAttribute key p attributes r) ↔
    (Key.isOptional key = false → Key.base key ∈ Fields.names attributes) ∧
      ∀ text, Fields.get? attributes (Key.base key) = some text → e.Reads r p text := by
  unfold checkAttribute
  dsimp only
  rw [succeeds_map_under]
  cases hget : Fields.get? attributes (Key.base key) with
  | none =>
    have hnot := Fields.get?_eq_none.1 hget
    cases Key.isOptional key <;> simp [hnot]
  | some text =>
    have hmem : Key.base key ∈ Fields.names attributes :=
      List.mem_map_of_mem (Fields.mem_of_get? hget)
    simp only [hmem, implies_true, true_and, Option.some.injEq, forall_eq']
    exact succeeds_reads_iff rfl

/-- The attributes are matched if they fit those declared. -/
theorem succeeds_checkAttributes_iff : Succeeds (e.checkAttributes shape attributes r) ↔
    FitsAttributes shape.attributes attributes (e.Reads r) := by
  have hunexpected : (((attributes.map (·.1)).filter fun name => !isNamespaceAttribute name &&
      (Pattern.keyNamed? shape.attributes name).isNone).map fun name =>
        (MatchResult.fail (r.messages.unexpected name)).under (attributeCrumb name)).all
          MatchResult.isSuccess = true ↔
      ∀ name ∈ Fields.names attributes, isNamespaceAttribute name = false →
        Pattern.keyNamed? shape.attributes name ≠ none := by
    simp [Fields.names, Option.isSome_iff_ne_none, or_iff_not_imp_left]
  unfold checkAttributes
  constructor
  · intro h
    obtain ⟨declared, hdeclared, h⟩ := succeeds_bind.1 h
    have hall : (MatchResult.all _).isSuccess = true := succeeds_some.1 h
    rw [MatchResult.isSuccess_all, List.all_append, Bool.and_eq_true, hunexpected] at hall
    have hattribute (m : String × Pattern) (hm : m ∈ shape.attributes) :=
      succeeds_checkAttribute_iff.1 ((all_isSuccess_iff hdeclared).1 hall.2 m hm)
    exact ⟨hall.1, fun m hm => (hattribute m hm).1, fun m hm => (hattribute m hm).2⟩
  · rintro ⟨hdeclared, hpresent, htexts⟩
    have hattribute (m : String × Pattern) (hm : m ∈ shape.attributes) :
        Succeeds (e.checkAttribute m.1 m.2 attributes r) :=
      succeeds_checkAttribute_iff.2 ⟨hpresent m hm, htexts m hm⟩
    obtain ⟨results, hresults⟩ := exists_traverse? fun m hm => ⟨_, hattribute m hm⟩
    refine succeeds_bind.2 ⟨results, hresults, succeeds_some.2 ?_⟩
    rw [MatchResult.isSuccess_all, List.all_append, Bool.and_eq_true, hunexpected]
    exact ⟨hdeclared, (all_isSuccess_iff hresults).2 hattribute⟩

end

/-! ## Content -/

/-- The content is matched if it fits the children that are declared. -/
theorem succeeds_checkContent_iff {values : List Value} (hany : .anything ∉ shape.children)
    (hnames : ((elements shape.children).map (·.name)).Nodup) :
    Succeeds (e.checkContent shape values r) ↔
      FitsContent shape.children values (e.Reads r) (e.TakesRun r) := by
  unfold checkContent FitsContent
  cases textPattern? shape.children with
  | some p => exact succeeds_reads_iff rfl
  | none =>
    dsimp only
    rw [← checkChildren_iff hany hnames]
    constructor
    · intro h
      obtain ⟨⟨results, left⟩, hresults, h⟩ := succeeds_bind.1 h
      have hall : (MatchResult.all _).isSuccess = true := succeeds_some.1 h
      rw [MatchResult.isSuccess_all, List.all_append, Bool.and_eq_true] at hall
      have hleft : left = [] := by simpa [List.eq_nil_iff_forall_not_mem] using hall.2
      exact ⟨results, hleft ▸ hresults, hall.1⟩
    · rintro ⟨results, hresults, hall⟩
      exact succeeds_bind.2 ⟨_, hresults, succeeds_some.2 (by simpa using hall)⟩

/-- A match against an element that refers to no type succeeds exactly for the nodes that have its
shape. -/
theorem succeeds_checkXml_iff (htype : shape.typeRef = none) (hany : .anything ∉ shape.children)
    (hnames : ((elements shape.children).map (·.name)).Nodup) :
    Succeeds (e.checkXml shape node.toValue r) ↔
      FitsNode shape node (e.Reads r) (e.TakesRun r) := by
  unfold checkXml XmlNode.toValue
  dsimp only
  rw [XmlShape.effective_of_untyped htype]
  dsimp only
  split
  · next hname => exact iff_of_false (by simp) fun h => hname h.name
  · next hname =>
    rw [not_not] at hname
    constructor
    · intro h
      obtain ⟨ofAttributes, hattributes, h⟩ := succeeds_bind.1 h
      split at h
      · next hnil =>
        rw [Bool.and_eq_true] at hnil
        exact ⟨hname, succeeds_checkAttributes_iff.1 (hattributes ▸ h), .inl hnil⟩
      · obtain ⟨ofContent, hcontent, h⟩ := succeeds_bind.1 h
        have hall : (MatchResult.all _).isSuccess = true := succeeds_some.1 h
        simp only [MatchResult.isSuccess_all, List.all_cons, List.all_nil, Bool.and_true,
          Bool.and_eq_true] at hall
        exact ⟨hname, succeeds_checkAttributes_iff.1 (hattributes ▸ succeeds_some.2 hall.1),
          .inr ((succeeds_checkContent_iff hany hnames).1 (hcontent ▸ succeeds_some.2 hall.2))⟩
    · rintro ⟨-, hattributes, hcontent⟩
      refine succeeds_bind.2 ⟨_, succeeds_checkAttributes_iff.2 hattributes, ?_⟩
      split
      · rfl
      · next hnil =>
        rw [Bool.and_eq_true] at hnil
        have hcontent := (succeeds_checkContent_iff hany hnames).2 (hcontent.resolve_left hnil)
        exact succeeds_bind.2 ⟨_, hcontent, rfl⟩

/-! ## Enough budget -/

/-- For a node there is nothing to match but the node itself, in mock mode too. -/
theorem check_node (n : Nat) (p : Pattern) (node : XmlNode) :
    (ofBudget (n + 1)).check p node.toValue r = (ofBudget n).checkValue p node.toValue r := rfl

end Engine

namespace Pattern

variable {ok : Scalar → Prop} {p : Pattern} {shape : XmlShape Pattern} {r : Resolver} {n : Nat}

/-- One layer of a match against a standalone element. -/
theorem succeeds_check_element_iff (h : (xml shape).Everywhere (ElementNode ok))
    {node : Engine.XmlNode} :
    Succeeds ((Engine.ofBudget (n + 1)).check (xml shape) node.toValue r) ↔
      Engine.FitsNode shape node ((Engine.ofBudget n).Reads r)
        ((Engine.ofBudget n).TakesRun r) := by
  have here : shape.Standalone := h.here
  rw [Engine.check_node]
  exact Engine.succeeds_checkXml_iff here.typeRef (anything_notMem h) here.names

/-- Matching a node against a standalone element ends if the budget exceeds the element. -/
theorem exists_check_element (h : p.Everywhere (ElementNode ok)) (hp : p = .xml shape)
    (hn : p.weight < n) (node : Engine.XmlNode) :
    ∃ m, (Engine.ofBudget n).check p node.toValue r = some m := by
  induction h generalizing shape n node with
  | @intro p here parts ih =>
    subst hp
    obtain ⟨n, rfl⟩ : ∃ k, n = k + 2 := ⟨n - 2, by have := (xml shape).weight_pos; omega⟩
    have here : shape.Standalone := here
    have hnode : (xml shape).Everywhere (ElementNode ok) := .intro here parts
    rw [Engine.check_node]
    refine Engine.answered_checkXml (XmlShape.effective_of_untyped here.typeRef r)
      (fun m hm a _ => ?_) (fun p hp => ?_) ?_
    · obtain ⟨s, hs⟩ := here.scalars m hm
      exact hs ▸ Engine.parse_scalar_ne_unfinished n s a.2
    · obtain ⟨s, rfl, -⟩ := exists_scalar_of_textPattern? (fun q hq => (hnode.child hq).here) hp
      exact Engine.parse_scalar_ne_unfinished n s _
    · intro child hchild node _
      have hmem : xml child ∈ (xml shape).parts := List.mem_append_right _ hchild
      have hlt : (xml child).weight < (xml shape).weight := weight_lt_of_inner hmem
      exact ih _ hmem rfl (by omega) node

/-- Matching a node against a standalone element ends on the budget that is computed for it. -/
theorem exists_check_of_element (h : (xml shape).Everywhere (ElementNode ok))
    (node : Engine.XmlNode) : ∃ m, (xml shape).check node.toValue r = some m := by
  refine exists_check_element h rfl ?_ node
  have hsize := Engine.two_mul_le_budgetFor
    ((xml shape).weight + node.toValue.weight + r.weight)
  have hpos := (xml shape).weight_pos
  omega

/-- An element with a scalar for its text and no attributes. -/
def textElement (name : String) (s : Scalar) (occurrence : Occurrence) (nillable : Bool) :
    XmlShape Pattern :=
  ⟨name, [], [.scalar s], occurrence, nillable, none⟩

/-- An element of text is built from the allowed forms where its scalar is. -/
theorem textElement_everywhere {name : String} {s : Scalar} {occurrence : Occurrence}
    {nillable : Bool} (hs : ok s) :
    (xml (textElement name s occurrence nillable)).Everywhere (ElementNode ok) := by
  have hstandalone : (textElement name s occurrence nillable).Standalone :=
    ⟨rfl, nofun, List.nodup_nil⟩
  exact .single hstandalone rfl (.leaf hs rfl)

end Pattern

end DataContract
