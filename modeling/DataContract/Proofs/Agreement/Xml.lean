import DataContract.Proofs.Agreement.Matching

/-!
# Agreement of engines on matching XML

The nodes of equal values have the same names and attributes and equal children, so every run of
nodes that a child pattern takes from one of them corresponds to the run it takes from the other.
-/

namespace DataContract

/-- The element that is expanded is the same in alike resolvers. -/
theorem XmlShape.expand_alike {r s : Resolver} (hr : r.Alike s) (steps : Nat)
    (shape : XmlShape Pattern) : shape.expand r steps = shape.expand s steps := by
  induction steps generalizing shape with
  | zero => rfl
  | succ steps ih => simp only [XmlShape.expand, hr.resolve, ih]

/-- The form in which an element is matched is the same in alike resolvers. -/
theorem XmlShape.effective_alike {r s : Resolver} (hr : r.Alike s) (shape : XmlShape Pattern) :
    shape.effective r = shape.effective s := by
  rw [XmlShape.effective, expand_alike hr, hr.registry, ← XmlShape.effective]

namespace Engine

/-- The nodes are the same but for the way numbers are written inside them. -/
structure XmlNode.Same (a b : XmlNode) : Prop where
  name : a.name = b.name
  attributes : a.attributes = b.attributes
  children : List.Forall₂ (fun v w => v.equal w = true) a.children b.children

/-- Nodes that are the same are equal as values. -/
theorem XmlNode.Same.toValue {a b : XmlNode} (h : a.Same b) :
    a.toValue.equal b.toValue = true := by
  simp [XmlNode.toValue, Value.equal, h.name, h.attributes, Value.equalItems_iff.2 h.children]

/-- The nodes among the children of equal values correspond. -/
theorem elementsOf_same {as bs : List Value}
    (h : List.Forall₂ (fun a b => a.equal b = true) as bs) :
    List.Forall₂ XmlNode.Same (elementsOf as) (elementsOf bs) := by
  unfold elementsOf
  induction h with
  | nil => exact .nil
  | cons hab _ ih =>
    cases Value.same_of_equal hab with
    | xml name attributes hc => exact .cons ⟨rfl, rfl, hc⟩ ih
    | null | boolean | number | string | object | array => exact ih

/-- The longest starts whose nodes have a name correspond, and so do the rests. -/
theorem span_same {as bs : List XmlNode} (h : List.Forall₂ XmlNode.Same as bs) (name : String) :
    List.Forall₂ XmlNode.Same (as.span (·.name = name)).1 (bs.span (·.name = name)).1 ∧
      List.Forall₂ XmlNode.Same (as.span (·.name = name)).2 (bs.span (·.name = name)).2 := by
  simp only [List.span_eq_takeWhile_dropWhile]
  induction h with
  | nil => exact ⟨.nil, .nil⟩
  | @cons a b as bs hab htail ih =>
    by_cases hn : b.name = name
    · have ha : a.name = name := hab.name.trans hn
      simp only [List.takeWhile_cons, List.dropWhile_cons, ha, hn, decide_true, if_true]
      exact ⟨.cons hab ih.1, ih.2⟩
    · have ha : ¬ a.name = name := hab.name ▸ hn
      simp only [List.takeWhile_cons, List.dropWhile_cons, ha, hn, decide_false]
      exact ⟨.nil, .cons hab htail⟩

/-- The run that a child pattern takes and the rest after it correspond. -/
theorem takeRun_same {as bs : List XmlNode} (h : List.Forall₂ XmlNode.Same as bs) (name : String)
    (occurrence : Occurrence) :
    List.Forall₂ XmlNode.Same (takeRun name occurrence as).1 (takeRun name occurrence bs).1 ∧
      List.Forall₂ XmlNode.Same (takeRun name occurrence as).2 (takeRun name occurrence bs).2 := by
  cases occurrence with
  | multiple => exact span_same h name
  | once | optional =>
    cases h with
    | nil => exact ⟨.nil, .nil⟩
    | cons hab htail =>
      simp only [takeRun, hab.name]
      split
      · exact ⟨.cons hab .nil, htail⟩
      · exact ⟨.nil, .cons hab htail⟩

namespace Below

open MatchResult (Agrees)

variable {e e' : Engine} {r s : Resolver} {v w : Value}

/-- An attribute is looked up and matched as a text, which has one spelling. -/
theorem checkAttribute (h : e.Below e') (hr : r.Alike s) (key : String) (p : Pattern)
    (attributes : List (String × String)) :
    Extends Agrees (e.checkAttribute key p attributes r)
      (e'.checkAttribute key p attributes s) := by
  unfold Engine.checkAttribute
  refine Extends.map (R := Agrees) ?_ fun _ _ ha => ha.under _ _
  split
  · exact (h.reads hr).map fun _ _ hb => by subst hb; exact .refl _
  · split
    · exact .some rfl
    · exact .some rfl

/-- The declared attributes are matched one by one. -/
theorem checkAttributes (h : e.Below e') (hr : r.Alike s) (shape : XmlShape Pattern)
    (attributes : List (String × String)) :
    Extends Agrees (e.checkAttributes shape attributes r)
      (e'.checkAttributes shape attributes s) := by
  refine Extends.bind (R := List.Forall₂ Agrees)
    (.traverse?_same fun _ _ => h.checkAttribute hr _ _ _) fun _ _ hrs => ?_
  refine .some (.all (List.rel_append ?_ hrs))
  exact forall₂_map_same _ fun _ => (Agrees.fail _ _).under _ _

/-- Child patterns take corresponding runs and leave corresponding rests. -/
theorem checkChildren (h : e.Below e') (hr : r.Alike s) (patterns : List Pattern)
    {as bs : List XmlNode} (hn : List.Forall₂ XmlNode.Same as bs) :
    Extends (fun x y => List.Forall₂ Agrees x.1 y.1 ∧ List.Forall₂ XmlNode.Same x.2 y.2)
      (e.checkChildren r patterns as) (e'.checkChildren s patterns bs) := by
  induction patterns generalizing as bs with
  | nil => exact .some ⟨.nil, hn⟩
  | cons p patterns ih =>
    cases p with
    | anything => exact ih .nil
    | xml shape =>
      obtain ⟨hrun, hrest⟩ := takeRun_same hn shape.name shape.occurrence
      simp only [Engine.checkChildren]
      refine Extends.bind (.traverse? hrun fun a b hab =>
        (h.check hab.toValue hr).map fun _ _ ha => ha.under shape.name shape.name) ?_
      intro _ _ htaken
      refine (ih hrest).bind fun x y hxy =>
        .some ⟨List.rel_append (List.rel_append htaken ?_) hxy.1, hxy.2⟩
      rw [isEmpty_eq_of_forall₂ hrun]
      split
      · exact .cons ((Agrees.fail _ _).under _ _) .nil
      · exact .nil
    | scalar | object | array | list | rest | dictionary | union | enumeration | exact | reference
    | lookup | inString | csv =>
      refine (ih hn).bind fun _ _ hxy => .some ⟨.cons (Agrees.fail _ _) hxy.1, hxy.2⟩

/-- Content is a text or a row of nodes, for both values alike. -/
theorem checkContent (h : e.Below e') (hr : r.Alike s) (shape : XmlShape Pattern)
    {as bs : List Value} (hc : List.Forall₂ (fun a b => a.equal b = true) as bs) :
    Extends Agrees (e.checkContent shape as r) (e'.checkContent shape bs s) := by
  unfold Engine.checkContent
  split
  · rw [Value.textContent_congr hc]
    exact (h.reads hr).map fun _ _ hb => by subst hb; exact .refl _
  · refine (h.checkChildren hr _ (elementsOf_same hc)).bind fun _ _ hxy => ?_
    refine .some (.all (List.rel_append hxy.1 ?_))
    rw [List.forall₂_map_left_iff, List.forall₂_map_right_iff]
    exact hxy.2.imp fun _ _ _ => (Agrees.fail _ _).under _ _

/-- Equal children are blank texts together. -/
theorem all_isBlankText {as bs : List Value}
    (hc : List.Forall₂ (fun a b => a.equal b = true) as bs) :
    as.all isBlankText = bs.all isBlankText := by
  induction hc with
  | nil => rfl
  | cons hab _ ih =>
    rw [List.all_cons, List.all_cons, ih]
    cases Value.same_of_equal hab <;> rfl

/-- A node is matched by its name and attributes, and by its content unless the element may be
nil. -/
theorem checkXml (h : e.Below e') (hr : r.Alike s) (hv : v.equal w = true)
    (shape : XmlShape Pattern) :
    Extends Agrees (e.checkXml shape v r) (e'.checkXml shape w s) := by
  cases Value.same_of_equal hv with
  | xml name attributes hc =>
    unfold Engine.checkXml
    rw [shape.effective_alike hr]
    dsimp only
    split
    · exact .some rfl
    · split
      · exact .none
      · exact .some rfl
      · refine (h.checkAttributes hr _ _).bind fun _ _ ha => ?_
        rw [all_isBlankText hc]
        split
        · exact .some ha
        · exact (h.checkContent hr _ hc).bind fun _ _ hb => .some (.all (.cons ha (.cons hb .nil)))
  | null | boolean | number | string | object | array => exact .some rfl

end Below

end Engine

end DataContract
