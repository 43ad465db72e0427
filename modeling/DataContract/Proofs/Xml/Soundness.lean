import DataContract.Proofs.Agreement.Xml
import DataContract.Proofs.Generation.Scalars
import DataContract.Proofs.ObjectKeys
import DataContract.Proofs.Termination.Texts
import DataContract.Proofs.Xml.Generation

/-!
# Generated nodes are accepted

What an element generates, with types and recursive ones, is a node that matching accepts
(`Pattern.check_of_generates`), if attributes and texts are scalars from the constructors that check
their bounds, attributes and child elements are told apart, and nothing but one pattern that accepts
everything follows the child elements. A range built without that check may be one that no number is
in; it generates a number all the same (`Pattern.crossed_not_accepted`).

Matching looks at the same attributes and children as generation: those that the element has with
its types (`XmlShape.effective`). These may refer to types again, so the condition is on all
elements that can be reached this way (`XmlShape.Legible`). A recursion that generation breaks off
leaves a run shorter, but only where the element need not occur. The budget that matching needs
comes from the node, which is finite however often the types recur.
-/

namespace DataContract

open Pattern (elements textPattern?)

namespace XmlShape

variable {shape base other : XmlShape Pattern} {r : Resolver}

/-- The attributes are scalars with checked bounds and have different base names, and the children
are such a scalar, or elements of different names of which anything may follow the last. -/
structure LegibleNode (shape : XmlShape Pattern) : Prop where
  scalars : ∀ m ∈ shape.attributes, ∃ s, m.2 = .scalar s ∧ s.Checked
  distinct : (shape.attributes.map fun m => Key.base m.1).Nodup
  content : (∃ s, shape.children = [.scalar s] ∧ s.Checked) ∨
    ∃ (shapes : List (XmlShape Pattern)) (tail : List Pattern),
      shape.children = shapes.map .xml ++ tail ∧ (shapes.map (·.name)).Nodup ∧
        (tail = [] ∨ tail = [.anything])

/-- The second element is a child of what the first one is with its types. -/
def Child (r : Resolver) (shape other : XmlShape Pattern) : Prop :=
  ∃ base, shape.effective r = .ok base ∧ .xml other ∈ base.children

/-- With their types the element, its children, their children and so on are legible nodes. -/
def Legible (r : Resolver) (shape : XmlShape Pattern) : Prop :=
  ∀ inside base, Relation.ReflTransGen (Child r) shape inside →
    inside.effective r = .ok base → base.LegibleNode

/-- An element that is legible is a legible node with its types. -/
theorem Legible.here (h : shape.Legible r) (hbase : shape.effective r = .ok base) :
    base.LegibleNode :=
  h shape base .refl hbase

/-- The children of a legible element are legible. -/
theorem Legible.child (h : shape.Legible r) (hbase : shape.effective r = .ok base)
    (hchild : .xml other ∈ base.children) : other.Legible r :=
  fun inside b hinside hb => h inside b (.head ⟨base, hbase, hchild⟩ hinside) hb

/-- An element is legible if it has a property that goes over to children and, of what an element is
with its types, makes a legible node. -/
theorem legible_of_invariant {P : XmlShape Pattern → Prop} (hshape : P shape)
    (hnode : ∀ inside base, P inside → inside.effective r = .ok base →
      base.LegibleNode ∧ ∀ child, .xml child ∈ base.children → P child) : shape.Legible r := by
  intro inside base hinside hbase
  have hP : P inside := by
    clear hbase
    induction hinside with
    | refl => exact hshape
    | tail _ hchild ih =>
      obtain ⟨parent, hparent, hmem⟩ := hchild
      exact (hnode _ parent ih hparent).2 _ hmem
  exact (hnode inside base hP hbase).1

/-- An element keeps its own name, whatever types it refers to. -/
theorem name_of_expand {steps : Nat} (h : shape.expand r steps = .ok base) :
    base.name = shape.name := by
  cases steps with
  | zero => cases h
  | succ steps =>
    rw [expand] at h
    split at h
    · cases h
      rfl
    · split at h
      · cases h
      · obtain ⟨type, -, rfl⟩ := Outcome.map_eq_ok.1 h
        rfl
      · cases h

end XmlShape

namespace Engine

variable {e : Engine} {r : Resolver} {shape base : XmlShape Pattern} {node : XmlNode}
  {shapes : List (XmlShape Pattern)} {nodes : List XmlNode} {tail : List Pattern}

/-! ## Matching -/

/-- Attributes that fit also fit where each declared text is read more often. -/
theorem FitsAttributes.imp {patterns : List (String × Pattern)}
    {attributes : List (String × String)} {reads reads' : Pattern → String → Prop}
    (h : FitsAttributes patterns attributes reads)
    (himp : ∀ m ∈ patterns, ∀ text, reads m.2 text → reads' m.2 text) :
    FitsAttributes patterns attributes reads' :=
  ⟨h.declared, h.present, fun m hm text ht => himp m hm text (h.texts m hm text ht)⟩

/-- A node is accepted if it fits what the element is with its types. -/
theorem succeeds_checkXml_of_effective (hbase : shape.effective r = .ok base)
    (hname : node.name = shape.name)
    (hattributes : FitsAttributes base.attributes node.attributes (e.Reads r))
    (hcontent : Succeeds (e.checkContent base node.children r)) :
    Succeeds (e.checkXml shape node.toValue r) := by
  unfold checkXml XmlNode.toValue
  dsimp only
  rw [if_neg (not_not.2 hname), hbase]
  refine succeeds_bind.2 ⟨_, succeeds_checkAttributes_iff.2 hattributes, ?_⟩
  split
  · rfl
  · exact succeeds_bind.2 ⟨_, hcontent, rfl⟩

/-- Runs for elements of different names are taken in one pass, and nothing is left for the pattern
that accepts everything. -/
theorem exists_checkChildren_of_runs (hruns : Runs (e.TakesRun r) shapes nodes)
    (hnames : (shapes.map (·.name)).Nodup) (htail : tail = [] ∨ tail = [.anything]) :
    ∃ results, e.checkChildren r (shapes.map .xml ++ tail) nodes = some (results, []) ∧
      results.all MatchResult.isSuccess = true := by
  induction hruns with
  | nil => rcases htail with rfl | rfl <;> exact ⟨[], rfl, rfl⟩
  | cons names taken later ih =>
    have hrun := takeRun_append names taken.admits fun node hn => later.name_ne hnames hn
    exact (checkChildren_xml_iff hrun).2 ⟨taken, ih (List.nodup_cons.1 hnames).2⟩

/-- Elements, with anything after them, are not the pattern of a text. -/
theorem textPattern?_elements (shapes : List (XmlShape Pattern))
    (htail : tail = [] ∨ tail = [.anything]) : textPattern? (shapes.map .xml ++ tail) = none := by
  cases hp : textPattern? (shapes.map .xml ++ tail) with
  | none => rfl
  | some p =>
    obtain ⟨hsingle, hxml⟩ := Pattern.eq_singleton_of_textPattern? hp
    cases shapes with
    | cons shape shapes => exact absurd (List.cons.inj hsingle).1.symm (hxml shape)
    | nil =>
      rcases htail with rfl | rfl
      · cases hsingle
      · cases hp

/-- Nodes that are a run for each element in turn are matched, whether or not anything may
follow. -/
theorem succeeds_checkContent_of_runs (hchildren : base.children = shapes.map .xml ++ tail)
    (hruns : Runs (e.TakesRun r) shapes nodes) (hnames : (shapes.map (·.name)).Nodup)
    (htail : tail = [] ∨ tail = [.anything]) :
    Succeeds (e.checkContent base (nodes.map XmlNode.toValue) r) := by
  obtain ⟨results, hresults, hall⟩ := exists_checkChildren_of_runs hruns hnames htail
  unfold checkContent
  rw [hchildren, textPattern?_elements shapes htail]
  dsimp only
  rw [elementsOf_map_toValue]
  exact succeeds_bind.2 ⟨_, hresults, succeeds_some.2 (by simpa using hall)⟩

/-- A scalar with checked bounds reads the text of what it generates, on any budget. -/
theorem reads_literal_generate {s : Scalar} (h : s.Checked) (n : Nat) (c : Choices) :
    (ofBudget (n + 1)).Reads r (.scalar s) (s.generate c).literal := by
  obtain ⟨v, hv, -⟩ := Scalar.parse_literal (Scalar.check_generate h c)
  exact ⟨v, Outcome.ofExcept_eq_ok.2 hv⟩

/-- The text that a scalar with checked bounds generates is read as the content of a node. -/
theorem succeeds_checkContent_of_text {s : Scalar} (hchildren : base.children = [.scalar s])
    (h : s.Checked) (n : Nat) (c : Choices) :
    Succeeds ((ofBudget (n + 1)).checkContent base [.string (s.generate c).literal] r) := by
  have htrim : Text.trim (Value.textContent [.string (s.generate c).literal]) =
      (s.generate c).literal := by
    have hsolid := Text.trimChars_of_forall fun d hd =>
      (Scalar.solid_literal_generate s c d hd).1
    simp [Value.textContent, Text.trim, hsolid]
  have htext : textPattern? base.children = some (.scalar s) := by
    rw [hchildren]
    rfl
  unfold checkContent
  rw [htext]
  dsimp only
  rw [htrim]
  exact (succeeds_reads_iff rfl).2 (reads_literal_generate h n c)

/-- The node is of the name of the element, and a budget above its weight is enough to accept it. -/
structure AcceptsNode (r : Resolver) (shape : XmlShape Pattern) (node : XmlNode) : Prop where
  name : node.name = shape.name
  accepted : ∀ n, node.toValue.weight < n →
    Succeeds ((ofBudget n).check (.xml shape) node.toValue r)

/-- Nodes of an element that are accepted, as many as its occurrence admits. -/
structure AcceptsRun (r : Resolver) (shape : XmlShape Pattern) (run : List XmlNode) : Prop where
  admits : shape.occurrence.Admits run.length
  accepted : ∀ node ∈ run, AcceptsNode r shape node

end Engine

namespace Generation

open Engine (XmlNode AcceptsNode AcceptsRun FitsAttributes Runs)

variable {gen : Generator} {r r' : Resolver} {c : Choices} {v : Value} {shape : XmlShape Pattern}
  {n : Nat}

/-! ## Generation -/

/-- What goes into a node of an element with its types. -/
theorem exists_base_of_xml (h : xml gen shape r c = .ok v) :
    ∃ s base, ∃ node : XmlNode, s.Alike r ∧ shape.effective s = .ok base ∧ v = node.toValue ∧
      node.name = base.name ∧ attributes gen base.attributes s (c.part 0) = .ok node.attributes ∧
      content gen base.children s (c.part 1) = .ok node.children := by
  obtain ⟨s, hs, h⟩ : ∃ s : Resolver, s.Alike r ∧ (do
      let base ← shape.effective s
      let fields ← attributes gen base.attributes s (c.part 0)
      let values ← content gen base.children s (c.part 1)
      return Value.xml base.name fields values) = Outcome.ok v := by
    unfold xml at h
    dsimp only at h
    split at h
    · exact ⟨r, .refl r, h⟩
    · obtain ⟨s, hs, h⟩ := Outcome.bind_eq_ok.1 h
      exact ⟨s, .of_expand (Outcome.ofExcept_eq_ok.1 hs), h⟩
  obtain ⟨base, hbase, h⟩ := Outcome.bind_eq_ok.1 h
  obtain ⟨fields, hfields, h⟩ := Outcome.bind_eq_ok.1 h
  obtain ⟨values, hvalues, h⟩ := Outcome.bind_eq_ok.1 h
  cases h
  exact ⟨s, base, ⟨base.name, fields, values⟩, hs, hbase, rfl, rfl, hfields, hvalues⟩

/-- Generated attributes fit: they are declared, mandatory ones are there, and every text is that of
a value that is made of its pattern. -/
theorem fitsAttributes_of_attributes {patterns : List (String × Pattern)}
    {fields : List (String × String)} (hd : (patterns.map fun m => Key.base m.1).Nodup)
    (h : attributes gen patterns r c = .ok fields) :
    FitsAttributes patterns fields fun p text => ∃ w, Made gen r p w ∧ text = w.literal := by
  have hdeclared (name : String) (hn : name ∈ Fields.names fields) :
      Pattern.keyNamed? patterns name ≠ none := by
    obtain ⟨m, hm, hname⟩ := exists_of_mem_attributes h hn
    exact Pattern.keyNamed?_ne_none_iff.2 ⟨m, hm, .inl hname⟩
  obtain ⟨pairs, hpairs, h⟩ := Outcome.bind_eq_ok.1 h
  cases h
  refine ⟨fun name hn _ => hdeclared name hn, fun m hm hmandatory => ?_, fun m hm text ht => ?_⟩
  · obtain ⟨i, hi⟩ := List.getElem?_of_mem hm
    obtain ⟨pair, hpair, h⟩ := Outcome.exists_of_traverse hpairs
      (List.mem_filter.2 ⟨List.mk_mem_zipIdx_iff_getElem?.2 hi, by simp [hmandatory]⟩)
    obtain ⟨w, -, h⟩ := Outcome.bind_eq_ok.1 h
    cases h
    exact Fields.mem_names_ofPairs.2 (List.mem_map.2 ⟨_, hpair, rfl⟩)
  · obtain ⟨⟨m', i⟩, hm', h⟩ := Outcome.exists_of_mem_traverse hpairs
      (Fields.mem_of_mem_ofPairs (Fields.mem_of_get? ht))
    obtain ⟨w, hw, h⟩ := Outcome.bind_eq_ok.1 h
    obtain ⟨hbase, rfl⟩ := Prod.ext_iff.1 (Outcome.ok.inj h)
    have hsame : m' = m := List.inj_on_of_nodup_map hd
      (List.fst_mem_of_mem_zipIdx (List.mem_of_mem_filter hm')) hm hbase
    exact ⟨w, ⟨_, hsame ▸ hw⟩, rfl⟩

/-- The nodes of an element at its place are as many as its occurrence admits. -/
theorem acceptsRun_of_occurrences {values : List Value}
    (hgen : ∀ v, Made gen r (.xml shape) v →
      ∃ node : XmlNode, v = node.toValue ∧ AcceptsNode r' shape node)
    (h : occurrences gen shape r c = .ok values) :
    ∃ run : List XmlNode, values = run.map XmlNode.toValue ∧
      (∀ node ∈ run, node.name = shape.name) ∧ AcceptsRun r' shape run := by
  obtain ⟨run, rfl, hall, hle, hfull⟩ := exists_run_of_nodes hgen h
  refine ⟨run, rfl, fun node hn => (hall node hn).name, ?_, hall⟩
  cases hoccurrence : shape.occurrence with
  | once =>
    have hlength := hfull (.inl hoccurrence)
    rw [hoccurrence] at hlength
    exact hlength
  | multiple => trivial
  | optional =>
    refine hle.trans ?_
    simp only [hoccurrence]
    split <;> decide

/-- What the generator makes of legible elements are nodes that are accepted. -/
def MakesAccepted (gen : Generator) (r : Resolver) : Prop :=
  ∀ (shape : XmlShape Pattern) (r' : Resolver) (v : Value), shape.Legible r → r'.Alike r →
    Made gen r' (.xml shape) v → ∃ node : XmlNode, v = node.toValue ∧ AcceptsNode r shape node

/-- The content that is made of legible children is accepted on a budget that is enough for the
nodes in it. -/
theorem succeeds_checkContent_of_content {base : XmlShape Pattern} {values : List Value} {k : Nat}
    (hgen : MakesAccepted (ofBudget n) r) (hr : r'.Alike r) (hbase : base.LegibleNode)
    (hchildren : ∀ child, .xml child ∈ base.children → child.Legible r)
    (h : content (ofBudget n) base.children r' c = .ok values)
    (hk : ∀ v ∈ values, v.weight < k + 1) :
    Succeeds ((Engine.ofBudget (k + 1)).checkContent base values r) := by
  unfold content at h
  rcases hbase.content with ⟨s, htext, hchecked⟩ | ⟨shapes, tail, helements, hnames, htail⟩
  · rw [htext] at h
    obtain ⟨w, hw, h⟩ := Outcome.bind_eq_ok.1 h
    cases h
    obtain ⟨d, rfl⟩ := Pattern.exists_of_generates_scalar ⟨n, _, hw⟩
    exact Engine.succeeds_checkContent_of_text htext hchecked k d
  · have hnone : textPattern? base.children = none :=
      helements ▸ Engine.textPattern?_elements shapes htail
    rw [hnone] at h
    obtain ⟨runs, hruns, h⟩ := Outcome.bind_eq_ok.1 h
    cases h
    have hrun (shape : XmlShape Pattern) (hs : .xml shape ∈ base.children) (c : Choices)
        (values : List Value) (hvalues : occurrences (ofBudget n) shape r' c = .ok values) :=
      acceptsRun_of_occurrences (fun v hv => hgen shape r' v (hchildren shape hs) hr hv) hvalues
    obtain ⟨nodes, hnodes, htaken⟩ :=
      exists_runs_of_forall₂ hrun (Outcome.forall₂_of_traverse hruns)
    have hshapes : elements base.children = shapes := by
      rcases htail with rfl | rfl <;> simp [helements, elements]
    rw [hnodes] at hk ⊢
    rw [hshapes] at htaken
    refine Engine.succeeds_checkContent_of_runs helements (htaken.imp_of_mem ?_) hnames htail
    -- the nodes of a run are among those that the budget is enough for
    intro shape run hmem haccepts
    exact ⟨haccepts.admits, fun node hn => (haccepts.accepted node hn).accepted (k + 1)
      (hk _ (List.mem_map_of_mem (hmem node hn)))⟩

/-- One step of the generator makes accepted nodes if all smaller budgets do. -/
theorem makesAccepted_step (hgen : MakesAccepted (ofBudget n) r) :
    MakesAccepted (ofBudget (n + 1)) r := by
  intro shape r' v hlegible hr hv
  obtain ⟨c, h⟩ := hv
  obtain ⟨s, base, node, hs, hbase, rfl, hname, hattributes, hcontent⟩ := exists_base_of_xml h
  have hsr : s.Alike r := hs.trans hr
  rw [shape.effective_alike hsr] at hbase
  have hbaseName : base.name = shape.name := XmlShape.name_of_expand hbase
  have hnode := hlegible.here hbase
  refine ⟨node, rfl, hname.trans hbaseName, fun k hk => ?_⟩
  obtain ⟨k, rfl⟩ : ∃ j, k = j + 2 :=
    Nat.exists_eq_add_of_le' (Nat.lt_of_le_of_lt node.toValue.weight_pos hk)
  rw [Engine.check_node]
  refine Engine.succeeds_checkXml_of_effective hbase (hname.trans hbaseName) ?_ ?_
  · refine (fitsAttributes_of_attributes hnode.distinct hattributes).imp ?_
    rintro m hm text ⟨w, hw, rfl⟩
    obtain ⟨t, ht, hchecked⟩ := hnode.scalars m hm
    rw [ht] at hw ⊢
    obtain ⟨d, rfl⟩ := Pattern.exists_of_generates_scalar ⟨n, hw⟩
    exact Engine.reads_literal_generate hchecked k d
  · refine succeeds_checkContent_of_content hgen hsr hnode
      (fun child hc => hlegible.child hbase hc) hcontent fun v hv => ?_
    have hlt : v.weight < node.toValue.weight := Value.weight_lt_of_mem_children hv
    omega

/-- Whatever the budget, what is generated are accepted nodes. -/
theorem makesAccepted_ofBudget (n : Nat) (r : Resolver) : MakesAccepted (ofBudget n) r := by
  induction n with
  | zero =>
    rintro shape r' v - - ⟨c, h⟩
    cases h
  | succ n ih => exact makesAccepted_step ih

end Generation

namespace Pattern

variable {shape : XmlShape Pattern} {v : Value} {r : Resolver}

/-- What a legible element generates it accepts, on the budget that is computed for the match. -/
theorem check_of_generates (h : shape.Legible r) (hv : (xml shape).Generates v r) :
    (xml shape).check v r = some .success := by
  obtain ⟨n, hv⟩ := hv
  obtain ⟨node, rfl, haccepts⟩ := Generation.makesAccepted_ofBudget n r shape r v h (.refl r) hv
  refine haccepts.accepted _ ?_
  have hsize := Engine.two_mul_le_budgetFor
    ((xml shape).weight + node.toValue.weight + r.weight)
  have hpos := node.toValue.weight_pos
  omega

/-- An element for the leaves of a tree, with a truth value as its text. -/
def leafElement : XmlShape Pattern :=
  ⟨"leaf", [], [.scalar .boolean], .multiple, false, none⟩

/-- An element of the type of trees. -/
def treeElement (occurrence : Occurrence) : XmlShape Pattern :=
  ⟨"tree", [], [], occurrence, false, some "Tree"⟩

/-- A tree has a size and leaves, perhaps a label, a tree inside and anything else. -/
def treeType : XmlShape Pattern :=
  ⟨"type", [("size", .number), ("label?", .string)],
    [.xml leafElement, .xml (treeElement .optional), .anything], .once, false, none⟩

/-- The type of trees is registered, and optional parts are generated. -/
def treeResolver : Resolver :=
  { Resolver.empty.register "Tree" (.xml treeType) with
    config := { GenerationConfig.standard with optionalKeys := .all } }

/-- The element for leaves is a legible node. -/
theorem leafElement_legibleNode : leafElement.LegibleNode where
  scalars := nofun
  distinct := List.nodup_nil
  content := .inl ⟨.boolean, rfl, trivial⟩

/-- The type of trees is a legible node. -/
theorem treeType_legibleNode : treeType.LegibleNode where
  scalars := by
    intro m hm
    obtain rfl | rfl : m = ("size", .number) ∨ m = ("label?", .string) := by
      simpa [treeType] using hm
    · exact ⟨_, rfl, none, none, false, rfl⟩
    · exact ⟨_, rfl, none, none, rfl⟩
  distinct := by decide
  content := .inr ⟨[leafElement, treeElement .optional], [.anything], rfl, by decide, .inr rfl⟩

/-- An element of the type of trees is legible, however deep the trees are. -/
theorem treeElement_legible (occurrence : Occurrence) :
    (treeElement occurrence).Legible treeResolver := by
  refine XmlShape.legible_of_invariant
    (P := fun shape => shape = leafElement ∨ ∃ occurrence, shape = treeElement occurrence)
    (.inr ⟨_, rfl⟩) ?_
  rintro inside base (rfl | ⟨occurrence, rfl⟩) hbase
  · cases hbase
    exact ⟨leafElement_legibleNode, fun child hc => by simp [leafElement] at hc⟩
  · cases hbase
    refine ⟨⟨treeType_legibleNode.scalars, treeType_legibleNode.distinct,
      treeType_legibleNode.content⟩, fun child hc => ?_⟩
    obtain rfl | rfl : child = leafElement ∨ child = treeElement .optional := by
      simpa [treeType] using hc
    · exact .inl rfl
    · exact .inr ⟨_, rfl⟩

/-- A tree with a label and a leaf is generated, without a tree inside, where the expansion of the
type would begin again, and it is accepted. -/
theorem tree_check :
    (treeElement .once).Legible treeResolver ∧
      (xml (treeElement .once)).Generates
        (.xml "tree" [("label", "AAAAA"), ("size", "1")] [.xml "leaf" [] [.string "false"]])
        treeResolver ∧
      (xml (treeElement .once)).check
        (.xml "tree" [("label", "AAAAA"), ("size", "1")] [.xml "leaf" [] [.string "false"]])
        treeResolver = some .success := by
  have hg : (xml (treeElement .once)).Generates
      (.xml "tree" [("label", "AAAAA"), ("size", "1")] [.xml "leaf" [] [.string "false"]])
      treeResolver := ⟨8, default, rfl⟩
  exact ⟨treeElement_legible _, hg, check_of_generates (treeElement_legible _) hg⟩

/-- The number five. -/
def five : Decimal := { Decimal.zero with magnitude := 5, magnitude_lt := by decide }

/-- The range with the minimum five and the maximum three, which the constructor that checks bounds
refuses. -/
def crossedRange : NumberRange :=
  ⟨some five, some { Decimal.zero with magnitude := 3, magnitude_lt := by decide }, false⟩

/-- An element with a number of that range as its text. -/
def crossedElement : XmlShape Pattern :=
  ⟨"a", [], [.scalar (.number crossedRange)], .once, false, none⟩

/-- The text `5` is generated and reads as the number that was drawn, but no number is in the
range. -/
theorem crossed_not_accepted :
    (∃ f, NumberRange.bounded crossedRange.minimum crossedRange.maximum false = .error f) ∧
      readDecimal five.text = .ok five ∧
      (xml crossedElement).Generates (.xml "a" [] [.string five.text]) .empty ∧
      ∃ f, (xml crossedElement).check (.xml "a" [] [.string five.text]) .empty =
        some (.failure f) := by
  exact ⟨⟨_, rfl⟩, rfl, ⟨2, default, rfl⟩, ⟨_, rfl⟩⟩

end Pattern

end DataContract
