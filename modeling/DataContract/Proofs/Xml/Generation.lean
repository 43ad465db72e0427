import DataContract.Proofs.Generation.Errors
import DataContract.Proofs.Generation.Structures
import DataContract.Proofs.Xml.Elements

/-!
# Generated nodes

What generation puts into a node of an element that refers to no type: attributes under declared
names, and either the text of its text pattern or, one after the other, a run of nodes for each of
its elements (`Engine.Runs`). Without types there is no recursion that could cut a run short
(`Generation.ne_error_ofBudget`), so only an element that is optional may have no nodes, and only
where the settings do not ask for all optional parts (`XmlShape.Skippable`).
-/

namespace DataContract

open Pattern (elements textPattern?)

/-- An element of which there may be no node in what is generated. -/
def XmlShape.Skippable (shape : XmlShape Pattern) (policy : OptionalKeys) : Prop :=
  shape.occurrence = .optional ∧ policy ≠ .all

namespace Pattern

/-- A scalar, a value or an element that refers to no type. -/
def UntypedNode : Pattern → Prop
  | .scalar _ => True
  | .exact _ => True
  | .xml shape => shape.typeRef = none
  | _ => False

end Pattern

namespace Engine

/-- Nodes that the element generates, at least one unless it may be skipped. -/
structure GeneratesRun (r : Resolver) (shape : XmlShape Pattern) (run : List XmlNode) : Prop where
  generates : ∀ node ∈ run, (Pattern.xml shape).Generates node.toValue r
  nonempty : ¬ shape.Skippable r.config.optionalKeys → run ≠ []

/-- The children are the text that the text pattern generates, or runs of nodes that the elements
generate. -/
def GeneratesContent (r : Resolver) (children : List Pattern) (values : List Value) : Prop :=
  match textPattern? children with
  | some p => ∃ w, p.Generates w r ∧ values = [.string w.literal]
  | none => ∃ nodes : List XmlNode, values = nodes.map XmlNode.toValue ∧
      Runs (GeneratesRun r) (elements children) nodes

/-- The node is of the name of the element, with no other attributes than the declared ones and
with generated children. -/
structure GeneratesNode (r : Resolver) (shape : XmlShape Pattern) (node : XmlNode) : Prop where
  name : node.name = shape.name
  attributes : ∀ name ∈ Fields.names node.attributes, ∃ m ∈ shape.attributes, Key.base m.1 = name
  content : GeneratesContent r shape.children node.children

@[simp] theorem elementsOf_map_toValue (nodes : List XmlNode) :
    elementsOf (nodes.map XmlNode.toValue) = nodes := by
  induction nodes with
  | nil => rfl
  | cons node nodes ih => exact congrArg (node :: ·) ih

/-- Nodes are not blank. -/
theorem eq_nil_of_all_isBlankText {nodes : List XmlNode}
    (h : (nodes.map XmlNode.toValue).all isBlankText = true) : nodes = [] := by
  cases nodes with
  | nil => rfl
  | cons node nodes => cases h

end Engine

namespace Generation

open Pattern (UntypedNode)
open Engine (XmlNode Runs GeneratesRun GeneratesContent GeneratesNode)

variable {gen : Generator} {r : Resolver} {c : Choices} {p : Pattern} {v : Value}
  {shape : XmlShape Pattern} {err : ContractError} {n : Nat}

/-- The attributes and the content make the node. -/
theorem xml_of_untyped (htype : shape.typeRef = none) : xml gen shape r c = (do
    let fields ← attributes gen shape.attributes r (c.part 0)
    let values ← content gen shape.children r (c.part 1)
    return .xml shape.name fields values) := by
  unfold xml
  rw [htype]
  simp only [Outcome.pure_eq, Outcome.ok_bind, XmlShape.effective_of_untyped htype]

/-! ## Errors -/

/-- An error for the nodes of an element is one for the element. -/
theorem errs_of_nodes {left : Nat} (h : nodes gen shape r c left = .error err) :
    Errs gen r (.xml shape) err := by
  induction left with
  | zero => cases h
  | succ left ih =>
    rw [nodes] at h
    split at h
    · exact ih (Outcome.map_eq_error.1 h)
    · next herr =>
      split at h
      · cases h
        exact ⟨_, herr⟩
      · cases h
    · next herr =>
      cases h
      exact ⟨_, herr⟩
    · cases h

/-- An error for the attributes is one for a declared attribute. -/
theorem errs_of_attributes {patterns : List (String × Pattern)}
    (h : attributes gen patterns r c = .error err) : ∃ m ∈ patterns, Errs gen r m.2 err := by
  rcases Outcome.bind_eq_error.1 h with h | ⟨pairs, -, h⟩
  · obtain ⟨⟨m, i⟩, hm, h⟩ := Outcome.exists_of_traverse_error h
    refine ⟨m, List.fst_mem_of_mem_zipIdx (List.mem_of_mem_filter hm), ?_⟩
    rcases Outcome.bind_eq_error.1 h with h | ⟨w, -, h⟩
    · exact ⟨_, h⟩
    · cases h
  · cases h

/-- An error for the content is one for a child. -/
theorem errs_of_content {children : List Pattern} (h : content gen children r c = .error err) :
    ∃ p ∈ children, Errs gen r p err := by
  unfold content at h
  split at h
  · next p hp =>
    obtain ⟨rfl, -⟩ := Pattern.eq_singleton_of_textPattern? hp
    rcases Outcome.bind_eq_error.1 h with h | ⟨w, -, h⟩
    · exact ⟨p, List.mem_cons_self, _, h⟩
    · cases h
  · rcases Outcome.bind_eq_error.1 h with h | ⟨runs, -, h⟩
    · obtain ⟨⟨p, i⟩, hp, h⟩ := Outcome.exists_of_traverse_error h
      refine ⟨p, List.fst_mem_of_mem_zipIdx hp, ?_⟩
      cases p with
      | xml child => exact errs_of_nodes h
      | _ => cases h
    · cases h

/-- An error at an element that refers to no type comes from a part. -/
theorem errs_of_xml (htype : shape.typeRef = none) (h : xml gen shape r c = .error err) :
    ∃ q ∈ (Pattern.xml shape).parts, Errs gen r q err := by
  rw [xml_of_untyped htype] at h
  rcases Outcome.bind_eq_error.1 h with h | ⟨fields, -, h⟩
  · obtain ⟨m, hm, herr⟩ := errs_of_attributes h
    exact ⟨m.2, List.mem_append_left _ (List.mem_map_of_mem hm), herr⟩
  · rcases Outcome.bind_eq_error.1 h with h | ⟨values, -, h⟩
    · obtain ⟨p, hp, herr⟩ := errs_of_content h
      exact ⟨p, List.mem_append_right _ hp, herr⟩
    · cases h

/-- Where no element refers to a type generation does not end in an error. -/
theorem ne_error_ofBudget (hp : p.Everywhere UntypedNode) : ofBudget n p r c ≠ .error err := by
  intro h
  induction n generalizing p c with
  | zero => cases h
  | succ n ih =>
    cases p with
    | scalar | exact => cases h
    | xml shape =>
      obtain ⟨q, hq, c, h⟩ := errs_of_xml hp.here h
      exact ih (hp.part hq) h
    | _ => exact hp.here

/-! ## Values -/

/-- What goes into a node of an element that refers to no type. -/
theorem exists_of_xml (htype : shape.typeRef = none) (h : xml gen shape r c = .ok v) :
    ∃ node : XmlNode, v = node.toValue ∧ node.name = shape.name ∧
      attributes gen shape.attributes r (c.part 0) = .ok node.attributes ∧
      content gen shape.children r (c.part 1) = .ok node.children := by
  rw [xml_of_untyped htype] at h
  obtain ⟨names, hnames, h⟩ := Outcome.bind_eq_ok.1 h
  obtain ⟨values, hvalues, h⟩ := Outcome.bind_eq_ok.1 h
  cases h
  exact ⟨⟨shape.name, names, values⟩, rfl, rfl, hnames, hvalues⟩

/-- Generated attributes are declared. -/
theorem exists_of_mem_attributes {patterns : List (String × Pattern)}
    {fields : List (String × String)} {name : String}
    (h : attributes gen patterns r c = .ok fields) (hname : name ∈ Fields.names fields) :
    ∃ m ∈ patterns, Key.base m.1 = name := by
  obtain ⟨pairs, hpairs, h⟩ := Outcome.bind_eq_ok.1 h
  cases h
  obtain ⟨pair, hpair, rfl⟩ := List.mem_map.1 (Fields.mem_names_ofPairs.1 hname)
  obtain ⟨⟨m, i⟩, hm, h⟩ := Outcome.exists_of_mem_traverse hpairs hpair
  obtain ⟨w, -, h⟩ := Outcome.bind_eq_ok.1 h
  cases h
  exact ⟨m, List.fst_mem_of_mem_zipIdx (List.mem_of_mem_filter hm), rfl⟩

/-- Every value that is made of an element is a node of its name. -/
theorem exists_node_of_made (hs : (Pattern.xml shape).Everywhere UntypedNode)
    (h : Made (ofBudget n) r (.xml shape) v) :
    ∃ node : XmlNode, v = node.toValue ∧ node.name = shape.name := by
  obtain ⟨m, c, h⟩ := exists_step h
  obtain ⟨node, rfl, hname, -, -⟩ := exists_of_xml hs.here h
  exact ⟨node, rfl, hname⟩

/-- There are no more nodes than were asked for, and exactly as many where the element has to occur
and where generation does not end in an error. -/
theorem exists_run_of_nodes {takes : XmlNode → Prop} {left : Nat} {values : List Value}
    (hgen : ∀ v, Made gen r (.xml shape) v → ∃ node : XmlNode, v = node.toValue ∧ takes node)
    (h : nodes gen shape r c left = .ok values) :
    ∃ run : List XmlNode, values = run.map XmlNode.toValue ∧ (∀ node ∈ run, takes node) ∧
      run.length ≤ left ∧
      (shape.occurrence = .once ∨ (∀ err, ¬ Errs gen r (.xml shape) err) → run.length = left) := by
  induction left generalizing values with
  | zero =>
    cases h
    exact ⟨[], rfl, nofun, Nat.le_refl _, fun _ => rfl⟩
  | succ left ih =>
    rw [nodes] at h
    split at h
    · next v hv =>
      obtain ⟨rest, hrest, rfl⟩ := Outcome.map_eq_ok.1 h
      obtain ⟨run, rfl, hall, hle, hfull⟩ := ih hrest
      obtain ⟨node, rfl, hnode⟩ := hgen v ⟨_, hv⟩
      exact ⟨node :: run, rfl, List.forall_mem_cons.2 ⟨hnode, hall⟩, Nat.succ_le_succ hle,
        fun hf => congrArg (· + 1) (hfull hf)⟩
    · next herr =>
      split at h
      · cases h
      · next honce =>
        cases h
        refine ⟨[], rfl, nofun, Nat.zero_le _, fun hf => ?_⟩
        rcases hf with ho | hne
        · exact absurd ho honce
        · exact absurd ⟨_, herr⟩ (hne _)
    · cases h
    · cases h

/-- The nodes of an element at its place are a run for it. -/
theorem exists_run_of_occurrences {values : List Value}
    (hs : (Pattern.xml shape).Everywhere UntypedNode)
    (h : occurrences (ofBudget n) shape r c = .ok values) :
    ∃ run : List XmlNode, values = run.map XmlNode.toValue ∧
      (∀ node ∈ run, node.name = shape.name) ∧ GeneratesRun r shape run := by
  have hmade (v : Value) (hv : Made (ofBudget n) r (.xml shape) v) :
      ∃ node : XmlNode, v = node.toValue ∧
        (node.name = shape.name ∧ (Pattern.xml shape).Generates node.toValue r) := by
    obtain ⟨node, rfl, hname⟩ := exists_node_of_made hs hv
    exact ⟨node, rfl, hname, n, hv⟩
  obtain ⟨run, rfl, hall, -, hfull⟩ := exists_run_of_nodes hmade h
  have hlength := hfull (.inr fun err herr => herr.elim fun _ => ne_error_ofBudget hs)
  refine ⟨run, rfl, fun node hn => (hall node hn).1, fun node hn => (hall node hn).2,
    fun hskip => ?_⟩
  rintro rfl
  cases hoccurrence : shape.occurrence with
  | once => simp [hoccurrence] at hlength
  | multiple =>
    have hpos : 1 ≤ (c.part 0).between 1 2 := ((c.part 0).between_bounds (by decide)).1
    rw [hoccurrence] at hlength
    exact absurd (hpos.trans_eq hlength.symm) (by decide)
  | optional =>
    have hpolicy : r.config.optionalKeys = .all :=
      not_not.1 fun hne => hskip ⟨hoccurrence, hne⟩
    simp [hoccurrence, includesOptional, hpolicy] at hlength

/-- If the nodes at the place of each element are a run for it, the nodes at the places of all
elements are runs for them. -/
theorem exists_runs_of_forall₂ {takes : XmlShape Pattern → List XmlNode → Prop}
    {children : List Pattern} {start : Nat} {runs : List (List Value)}
    (hrun : ∀ shape, .xml shape ∈ children → ∀ c values, occurrences gen shape r c = .ok values →
      ∃ run : List XmlNode, values = run.map XmlNode.toValue ∧
        (∀ node ∈ run, node.name = shape.name) ∧ takes shape run)
    (h : List.Forall₂ (fun (a : Pattern × Nat) values =>
      (match a.1 with
        | .xml shape => occurrences gen shape r (c.part a.2)
        | _ => .ok []) = Outcome.ok values) (children.zipIdx start) runs) :
    ∃ nodes : List XmlNode, runs.flatten = nodes.map XmlNode.toValue ∧
      Runs takes (elements children) nodes := by
  induction children generalizing start runs with
  | nil =>
    cases h
    exact ⟨[], rfl, .nil⟩
  | cons p children ih =>
    cases h with
    | @cons _ values _ runs hp hrest =>
      obtain ⟨nodes, hnodes, hruns⟩ :=
        ih (fun shape hs => hrun shape (List.mem_cons_of_mem _ hs)) hrest
      cases p with
      | xml shape =>
        obtain ⟨run, rfl, hnames, htakes⟩ := hrun shape List.mem_cons_self _ _ hp
        refine ⟨run ++ nodes, ?_, .cons hnames htakes hruns⟩
        rw [List.flatten_cons, hnodes, List.map_append]
      | _ =>
        obtain rfl : [] = values := Outcome.ok.inj hp
        exact ⟨nodes, hnodes, hruns⟩

/-- The content of a node is generated by the children of its element. -/
theorem generatesContent_of_content {children : List Pattern} {values : List Value}
    (hchildren : ∀ p ∈ children, p.Everywhere UntypedNode)
    (h : content (ofBudget n) children r c = .ok values) : GeneratesContent r children values := by
  unfold content at h
  unfold GeneratesContent
  cases htext : textPattern? children with
  | some p =>
    rw [htext] at h
    obtain ⟨w, hw, h⟩ := Outcome.bind_eq_ok.1 h
    cases h
    exact ⟨w, ⟨n, _, hw⟩, rfl⟩
  | none =>
    rw [htext] at h
    obtain ⟨runs, hruns, h⟩ := Outcome.bind_eq_ok.1 h
    cases h
    refine exists_runs_of_forall₂ (fun shape hs c values hvalues => ?_)
      (Outcome.forall₂_of_traverse hruns)
    exact exists_run_of_occurrences (hchildren _ hs) hvalues

end Generation

namespace Pattern

variable {shape : XmlShape Pattern} {v : Value} {r : Resolver}

/-- What an element that refers to no type generates is a node with generated content. -/
theorem exists_node_of_generates (hs : (xml shape).Everywhere UntypedNode)
    (hv : (xml shape).Generates v r) :
    ∃ node : Engine.XmlNode, v = node.toValue ∧ Engine.GeneratesNode r shape node := by
  obtain ⟨n, hv⟩ := hv
  obtain ⟨m, c, h⟩ := Generation.exists_step hv
  obtain ⟨node, rfl, hname, hattributes, hcontent⟩ := Generation.exists_of_xml hs.here h
  refine ⟨node, rfl, hname, fun name hn => Generation.exists_of_mem_attributes hattributes hn, ?_⟩
  exact Generation.generatesContent_of_content
    (fun p hp => hs.part (List.mem_append_right _ hp)) hcontent

end Pattern

end DataContract
