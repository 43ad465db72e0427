import DataContract.Proofs.Everywhere
import DataContract.Proofs.Termination.Depth
import DataContract.Proofs.Termination.Texts
import DataContract.Proofs.Xml.Runs
import DataContract.Reading

/-!
# What a step of matching and reading asks for

A pattern asks some of the patterns inside it about the value itself or about texts of it
(`Pattern.openParts`) and the others about parts of the value, which are lighter. Where these
questions have been answered (`Engine.AnswersInside`), so is the one about the pattern
(`Engine.AnswersInside.checkValue`, `Engine.parseStep_ne_unfinished`).
-/

namespace DataContract

/-! ## Answers -/

/-- The computation has ended. -/
def Answered {α : Type} (x : Option α) : Prop :=
  ∃ a, x = some a

namespace Answered

variable {α β : Type} {x : Option α}

/-- A given result is an answer. -/
theorem some (a : α) : Answered (some a) :=
  ⟨a, rfl⟩

/-- Two computations in a row are answered where the first one is and the second always. -/
theorem bind {f : α → Option β} (h : Answered x) (hf : ∀ a, Answered (f a)) :
    Answered (x >>= f) := by
  obtain ⟨a, rfl⟩ := h
  exact hf a

/-- A computation stays answered under a function of its result. -/
theorem map (h : Answered x) (f : α → β) : Answered (x.map f) := by
  obtain ⟨a, rfl⟩ := h
  exact ⟨f a, rfl⟩

/-- A traversal and what uses its results are answered where each step is. -/
theorem traverse_bind {f : α → Option β} {l : List α} {γ : Type} {g : List β → Option γ}
    (h : ∀ a ∈ l, Answered (f a)) (hg : ∀ bs, Answered (g bs)) :
    Answered (traverse? f l >>= g) :=
  bind (exists_traverse? h) hg

end Answered

/-! ## Open parts -/

namespace Pattern

variable {p q : Pattern}

/-- The patterns inside a pattern that it asks about the value itself or about texts of it, and all
patterns inside an element. -/
def openParts : Pattern → List Pattern
  | .union members _ _ => members
  | .enumeration shape => shape.members
  | .lookup _ type => [type]
  | .inString type => [type]
  | .csv item => [item]
  | .dictionary key _ => [key]
  | .xml ⟨_, attributes, children, _, _, _⟩ => attributes.map (·.2) ++ children
  | _ => []

/-- Open parts are inside the pattern. -/
theorem mem_inner_of_mem_openParts (h : q ∈ p.openParts) : q ∈ p.inner := by
  cases p with
  | union | enumeration | lookup | inString | csv | xml => exact h
  | dictionary key value => exact List.mem_singleton.1 h ▸ List.mem_cons_self
  | _ => cases h

/-- An element of text has one child only, and that child is no element. -/
theorem eq_singleton_of_textPattern? {children : List Pattern}
    (h : textPattern? children = some p) : children = [p] ∧ ∀ shape, p ≠ .xml shape := by
  unfold textPattern? at h
  split at h
  · cases h
  · cases h
  · next hxml hany =>
    cases h
    exact ⟨rfl, fun shape he => hxml shape (he ▸ rfl)⟩
  · cases h

end Pattern

open Pattern (openParts)

/-- Going on by an open part is going on. -/
theorem Resolver.LeadsBy.leads {r : Resolver} {p q : Pattern} (h : r.LeadsBy openParts p q) :
    r.Leads p q :=
  h.imp_left Pattern.mem_inner_of_mem_openParts

namespace Engine

variable {e : Engine} {r : Resolver} {p q key value : Pattern} {v : Value} {text : String}
  {weight : Nat}

/-! ## Matching -/

/-- The questions have been answered that come up where the pattern is matched with a value of at
most the weight: about the value and texts of it for what one comes to openly, and about lighter
values for the parts. -/
structure AnswersInside (e : Engine) (r : Resolver) (p : Pattern) (weight : Nat) : Prop where
  check {q : Pattern} {v : Value} (hq : r.LeadsBy openParts p q) (hv : v.weight ≤ weight) :
    Answered (e.check q v r)
  parse {q : Pattern} {text : String} (hq : r.LeadsBy openParts p q)
    (htext : 1 + text.length ≤ weight) : e.parse q text r ≠ .unfinished
  part {q : Pattern} {v : Value} (hq : q ∈ p.parts) (hv : v.weight < weight) :
    Answered (e.check q v r)

/-- Matching items in turn is answered where each match is. -/
theorem answered_checkItems {items : List Value} (start : Nat)
    (h : ∀ item ∈ items, Answered (e.check p item r)) :
    Answered (e.checkItems p items start r) :=
  .traverse_bind (fun _ ha => (h _ (List.fst_mem_of_mem_zipIdx ha)).map _) fun _ => .some _

/-- Matching a list is answered where matching lighter items is. -/
theorem answered_checkList {name : String} {min : Nat}
    (h : ∀ item : Value, item.weight < v.weight → Answered (e.check p item r)) :
    Answered (e.checkList p name min v r) := by
  unfold checkList
  split
  · split
    · exact .some _
    · exact answered_checkItems _ fun item hitem => h item (Value.weight_lt_of_mem_items hitem)
  · exact .some _

/-- Whether a text is read is answered where reading it ends. -/
theorem answered_reads (h : e.parse p text r ≠ .unfinished) : Answered (e.reads p text r) := by
  unfold reads
  split
  · exact .some _
  · exact .some _
  · next hunfinished => exact absurd hunfinished h

/-- Matching a key of a dictionary is answered where reading it ends. -/
theorem answered_checkKey {name : String} (h : e.parse key name r ≠ .unfinished) :
    Answered (e.checkKey key name r) :=
  (answered_reads h).map _

namespace AnswersInside

/-- Matching an object with a value of at most the weight is answered. -/
theorem checkObject {layout : Layout} {keys : List (String × Pattern)} {title : Option String}
    (h : e.AnswersInside r (.object layout keys title) weight) (hv : v.weight ≤ weight) :
    Answered (e.checkObject keys title v r) := by
  cases v with
  | object members =>
    refine .traverse_bind (fun a ha => Answered.map ?_ _) fun _ => .some _
    obtain ⟨m, hm, hpresent⟩ := List.mem_filterMap.1 ha
    obtain ⟨v, hget, rfl⟩ := Option.map_eq_some_iff.1 hpresent
    have hlight := Value.weight_lt_of_mem_members (Fields.mem_of_get? hget)
    exact h.part (List.mem_map_of_mem hm) (show v.weight < weight by omega)
  | _ => exact .some _

/-- Matching the fixed elements of an array with its items is answered. -/
theorem checkElements {elements : List Pattern} {items : List Value}
    (h : e.AnswersInside r (.array elements) weight) (hv : (Value.array items).weight ≤ weight) :
    Answered (e.checkElements (Pattern.splitRest elements).1 items r) := by
  refine exists_traverse? fun a ha => Answered.map ?_ _
  obtain ⟨hp, hitem⟩ := List.of_mem_zip (List.fst_mem_of_mem_zipIdx ha)
  exact h.part (List.mem_append_left _ hp) ((Value.weight_lt_of_mem_items hitem).trans_le hv)

/-- Matching an array with a value of at most the weight is answered. -/
theorem checkArray {elements : List Pattern} (h : e.AnswersInside r (.array elements) weight)
    (hv : v.weight ≤ weight) : Answered (e.checkArray elements v r) := by
  unfold Engine.checkArray
  split
  · next items =>
    dsimp only
    split
    · split
      · exact .some _
      · exact .bind (h.checkElements hv) fun _ => .some _
    · next q min hrest =>
      split
      · exact .some _
      · refine .bind (h.checkElements hv) fun _ => .bind (answered_checkItems _ fun w hw => ?_)
          fun _ => .some _
        have hlight := Value.weight_lt_of_mem_items (List.mem_of_mem_drop hw)
        exact h.part (List.mem_append_right _ (by simp [hrest])) (hlight.trans_le hv)
  · exact .some _

/-- Matching a dictionary with a value of at most the weight is answered. -/
theorem checkDictionary (h : e.AnswersInside r (.dictionary key value) weight)
    (hv : v.weight ≤ weight) : Answered (e.checkDictionary key value v r) := by
  unfold Engine.checkDictionary
  split
  · refine .traverse_bind (fun a ha => ?_) fun _ => .some _
    have hlight := Value.weight_lt_of_mem_members ha
    have hpos := a.2.weight_pos
    have hkey : e.parse key a.1 r ≠ .unfinished := h.parse (.inl List.mem_cons_self) (by omega)
    have hvalue : Answered (e.check value a.2 r) :=
      h.part (List.mem_cons_of_mem _ List.mem_cons_self) (by omega)
    exact .bind (answered_checkKey hkey) fun _ => .bind hvalue fun _ => .some _
  · exact .some _

/-- Matching a union is answered where matching each member is. -/
theorem checkUnion {members : List Pattern}
    (h : ∀ q ∈ members, Answered (e.check q v r)) : Answered (e.checkUnion members v r) :=
  .traverse_bind h fun _ => .some _

/-- Matching a name with a value of at most the weight is answered. -/
theorem checkReference {name : String} (h : e.AnswersInside r (.reference name) weight)
    (hv : v.weight ≤ weight) : Answered (e.checkReference name v r) := by
  unfold Engine.checkReference
  split
  · next q hq => exact h.check (.inr ⟨name, rfl, hq⟩) hv
  · exact .some _
  · exact .some _

/-- Matching an encoded pattern with a value of at most the weight is answered. -/
theorem checkInString (h : e.AnswersInside r (.inString q) weight) (hv : v.weight ≤ weight) :
    Answered (e.checkInString q v r) := by
  unfold Engine.checkInString
  dsimp only
  split
  · split
    · exact .some _
    · exact .some _
    · next hunfinished =>
      exact absurd hunfinished (h.parse (.inl List.mem_cons_self) hv)
  · exact .some _

end AnswersInside

/-- Matching a separated list is answered where reading each of its items ends. -/
theorem answered_checkCsv (h : ∀ item ∈ csvItems text, e.parse q item r ≠ .unfinished) :
    Answered (e.checkCsv q (.string text) r) := by
  refine .traverse_bind (fun a ha => ?_) fun _ => .some _
  have hitem := h _ (List.fst_mem_of_mem_zipIdx ha)
  dsimp only
  split
  · exact .some _
  · exact .some _
  · next hunfinished => exact absurd hunfinished hitem

/-- Matching a separated list with a value of at most the weight is answered. -/
theorem AnswersInside.checkCsv (h : e.AnswersInside r (.csv q) weight) (hv : v.weight ≤ weight) :
    Answered (e.checkCsv q v r) := by
  cases v with
  | string text =>
    refine answered_checkCsv fun item hitem => h.parse (.inl List.mem_cons_self) ?_
    have hle := length_le_of_mem_csvItems hitem
    rw [Value.weight_string] at hv
    omega
  | _ => exact .some _

/-! ## Matching elements -/

/-- An element among the children is, as a value, one of the children. -/
theorem toValue_mem_of_mem_elementsOf {node : XmlNode} {children : List Value}
    (h : node ∈ elementsOf children) : node.toValue ∈ children := by
  obtain ⟨v, hv, he⟩ := List.mem_filterMap.1 h
  cases v with
  | xml name attributes children =>
    cases he
    exact hv
  | _ => cases he

/-- Matching children with patterns in turn is answered where matching each element is. -/
theorem answered_checkChildren {patterns : List Pattern} {nodes : List XmlNode}
    (h : ∀ child, .xml child ∈ patterns → ∀ node ∈ nodes,
      Answered (e.check (.xml child) node.toValue r)) :
    Answered (e.checkChildren r patterns nodes) := by
  induction patterns generalizing nodes with
  | nil => exact .some _
  | cons p patterns ih =>
    have hlater {left : List XmlNode} (hleft : left ⊆ nodes) :
        Answered (e.checkChildren r patterns left) :=
      ih fun child hchild node hnode => h child (List.mem_cons_of_mem _ hchild) node (hleft hnode)
    cases p with
    | anything => exact hlater (List.nil_subset _)
    | xml child =>
      cases hrun : takeRun child.name child.occurrence nodes with
      | mk run rest =>
        obtain ⟨rfl, -⟩ := takeRun_spec hrun
        simp only [checkChildren, hrun]
        refine .traverse_bind (fun node hnode => Answered.map ?_ _) fun _ =>
          .bind (hlater (List.subset_append_right _ _)) fun _ => .some _
        exact h child List.mem_cons_self node (List.mem_append_left _ hnode)
    | _ =>
      simp only [checkChildren]
      exact .bind (hlater (List.Subset.refl _)) fun _ => .some _

/-- Matching a node has ended if reading its texts has and matching the nodes inside. -/
theorem answered_checkXml {shape base : XmlShape Pattern} {node : XmlNode}
    (hbase : shape.effective r = .ok base)
    (hattributes : ∀ m ∈ base.attributes, ∀ a ∈ node.attributes,
      e.parse m.2 a.2 r ≠ .unfinished)
    (htext : ∀ p, Pattern.textPattern? base.children = some p →
      e.parse p (Text.trim (Value.textContent node.children)) r ≠ .unfinished)
    (hchildren : ∀ child, .xml child ∈ base.children → ∀ inner ∈ elementsOf node.children,
      Answered (e.check (.xml child) inner.toValue r)) :
    Answered (e.checkXml shape node.toValue r) := by
  have hattribute (m : String × Pattern) (hm : m ∈ base.attributes) :
      Answered (e.checkAttribute m.1 m.2 node.attributes r) := by
    refine Answered.map ?_ _
    split
    · next text hget =>
      exact (answered_reads (hattributes m hm _ (Fields.mem_of_get? hget))).map _
    · split
      · exact .some _
      · exact .some _
  have hcontent : Answered (e.checkContent base node.children r) := by
    unfold checkContent
    split
    · next p hp => exact (answered_reads (htext p hp)).map _
    · exact .bind (answered_checkChildren hchildren) fun _ => .some _
  unfold checkXml XmlNode.toValue
  dsimp only
  rw [hbase]
  split
  · exact .some _
  · refine .bind (.traverse_bind hattribute fun _ => .some _) fun _ => ?_
    split
    · exact .some _
    · exact .bind hcontent fun _ => .some _

/-- No element is registered, so an element that refers to a type is an error. -/
def NoElements (r : Resolver) : Prop :=
  ∀ name shape, r.resolve name ≠ .ok (.xml shape)

/-- Where no element is registered, an element stands for itself or is an error. -/
theorem NoElements.effective (h : NoElements r) (shape : XmlShape Pattern) :
    shape.effective r = .ok shape ∨ ∃ err, shape.effective r = .error err := by
  unfold XmlShape.effective XmlShape.expand
  split
  · exact .inl rfl
  · next name _ =>
    split
    · exact .inr ⟨_, rfl⟩
    · next base hbase => exact absurd hbase (h name base)
    · exact .inr ⟨_, rfl⟩

/-- Matching an element with a value of at most the weight is answered. -/
theorem AnswersInside.checkXml {shape : XmlShape Pattern}
    (h : e.AnswersInside r (.xml shape) weight) (hr : NoElements r) (hv : v.weight ≤ weight) :
    Answered (e.checkXml shape v r) := by
  cases v with
  | xml name attributes children =>
    rcases hr.effective shape with hbase | ⟨err, herr⟩
    · show Answered (e.checkXml shape (XmlNode.toValue ⟨name, attributes, children⟩) r)
      refine answered_checkXml hbase (fun m hm a ha => ?_) (fun p hp => ?_)
        fun child hchild inner hinner => ?_
      · have hlength : a.2.length < (Value.xml name attributes children).weight :=
          Value.length_lt_of_mem_attributes ha
        exact h.parse (.inl (List.mem_append_left _ (List.mem_map_of_mem hm))) (by omega)
      · obtain ⟨hsingle, -⟩ := Pattern.eq_singleton_of_textPattern? hp
        have hmem : p ∈ shape.children := hsingle ▸ List.mem_cons_self
        have htrim := Text.length_trim_le (Value.textContent children)
        have hlength : (Value.textContent children).length <
            (Value.xml name attributes children).weight := Value.length_textContent_lt
        have hle : 1 + (Text.trim (Value.textContent children)).length ≤ weight := by omega
        exact h.parse (.inl (List.mem_append_right _ hmem)) hle
      · have hlight : inner.toValue.weight < (Value.xml name attributes children).weight :=
          Value.weight_lt_of_mem_children (toValue_mem_of_mem_elementsOf hinner)
        exact h.check (.inl (List.mem_append_right _ hchild)) (by omega)
    · unfold Engine.checkXml
      dsimp only
      rw [herr]
      split
      · exact .some _
      · exact .some _
  | _ => exact .some _

/-! ## Matching with all patterns -/

/-- A step of matching has ended if the questions inside have been answered. -/
theorem AnswersInside.checkValue (h : e.AnswersInside r p weight) (hr : NoElements r)
    (hv : v.weight ≤ weight) : Answered (e.checkValue p v r) := by
  cases p with
  | scalar | anything | exact => exact .some _
  | object => exact h.checkObject hv
  | array => exact h.checkArray hv
  | list | rest =>
    exact answered_checkList fun item hitem =>
      h.part List.mem_cons_self (hitem.trans_le hv)
  | dictionary => exact h.checkDictionary hv
  | xml => exact h.checkXml hr hv
  | union | enumeration => exact checkUnion fun q hq => h.check (.inl hq) hv
  | reference => exact h.checkReference hv
  | lookup => exact h.check (.inl List.mem_cons_self) hv
  | inString => exact h.checkInString hv
  | csv => exact h.checkCsv hv

/-! ## Reading -/

/-- Trying to read with members in turn ends where each reading does. -/
theorem parseMembers_ne_unfinished {members : List Pattern} {last : Option ContractError}
    (h : ∀ p ∈ members, e.parse p text r ≠ .unfinished) :
    e.parseMembers text r members last ≠ .unfinished := by
  induction members generalizing last with
  | nil => rintro ⟨⟩
  | cons p members ih =>
    obtain ⟨hhead, htail⟩ := List.forall_mem_cons.1 h
    rw [parseMembers]
    split
    · rintro ⟨⟩
    · exact ih htail
    · next hunfinished => exact absurd hunfinished hhead

/-- Reading with a union ends where reading with each member does. -/
theorem parseUnion_ne_unfinished {members : List Pattern} {name : String}
    (h : ∀ p ∈ members, e.parse p text r ≠ .unfinished) :
    e.parseUnion members name text r ≠ .unfinished := by
  have hmembers : e.parseMembers text r (Pattern.nonNull members) none ≠ .unfinished :=
    parseMembers_ne_unfinished fun p hp => h p (List.mem_of_mem_filter hp)
  unfold parseUnion
  split
  · next hunfinished => exact absurd hunfinished hmembers
  · exact nofun
  · exact nofun
  · dsimp only
    split
    · split
      · exact nofun
      · exact nofun
    · exact nofun

/-- Checking a value after it was read ends. -/
theorem accepted_ne_unfinished (name text : String) (v : Value) (m : MatchResult) :
    accepted name text v m ≠ .unfinished := by
  cases m <;> exact nofun

/-- Reading a text as an exact value ends. -/
theorem parseExact_ne_unfinished (v : Value) (text : String) :
    parseExact v text ≠ .unfinished := by
  unfold parseExact
  split
  · rintro ⟨⟩
  · exact accepted_ne_unfinished _ _ _ _

/-- A step of reading has ended if matching what was read has and reading the text or items of it
with what one comes to openly. -/
theorem parseStep_ne_unfinished (hcheck : Answered (e.check p (.ofText text) r))
    (hparts : ∀ q, r.LeadsBy openParts p q → ∀ t : String, t.length ≤ text.length →
      e.parse q t r ≠ .unfinished) : e.parseStep p text r ≠ .unfinished := by
  have hopen : ∀ q ∈ p.openParts, e.parse q text r ≠ .unfinished :=
    fun q hq => hparts q (.inl hq) text le_rfl
  have hstructured : e.parseStructured p text r ≠ .unfinished := by
    obtain ⟨m, hm⟩ := hcheck
    unfold parseStructured
    dsimp only
    rw [hm]
    exact accepted_ne_unfinished _ _ _ _
  cases p with
  | scalar s => exact Outcome.ofExcept_ne_unfinished _
  | anything => rintro ⟨⟩
  | object | array | list | rest | dictionary | xml => exact hstructured
  | union | enumeration => exact parseUnion_ne_unfinished hopen
  | exact value => exact parseExact_ne_unfinished value text
  | reference name =>
    simp only [parseStep]
    split
    · next q hq => exact hparts q (.inr ⟨name, rfl, hq⟩) text le_rfl
    · rintro ⟨⟩
  | lookup key type => exact hopen type List.mem_cons_self
  | inString type =>
    have htype := hopen type List.mem_cons_self
    rw [parseStep]
    cases hread : e.parse type text r with
    | ok v => rintro ⟨⟩
    | error err => rintro ⟨⟩
    | unfinished => exact absurd hread htype
  | csv item =>
    obtain ⟨m, hm⟩ : Answered (e.checkCsv item (.string text) r) := answered_checkCsv fun t ht =>
      hparts item (.inl List.mem_cons_self) t (length_le_of_mem_csvItems ht)
    simp only [parseStep, hm]
    exact accepted_ne_unfinished _ _ _ _

end Engine

end DataContract
