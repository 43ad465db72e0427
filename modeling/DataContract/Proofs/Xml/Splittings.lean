import DataContract.Proofs.ObjectKeys
import DataContract.Proofs.Xml.Elements

/-!
# Splittings of the child nodes

The element patterns among the children of an element describe sequences of nodes: the nodes are
split into consecutive runs, one for each pattern (`Pattern.Splits`). Matching looks for such a
splitting in one pass that takes for each pattern as many of the next nodes as it can and never goes
back. Where the names of the patterns are different it misses none: the content of a node is
accepted exactly if there is a splitting (`Engine.succeeds_checkContent_iff_splits`), and reported
otherwise.
-/

namespace DataContract

open Engine (XmlNode elementsOf)
open Pattern (elements)

/-- The nodes are put together from consecutive runs, one for each element: as many nodes as its
occurrence admits, each of which it accepts. -/
def Pattern.Splits (shapes : List (XmlShape Pattern)) (nodes : List XmlNode) (r : Resolver) : Prop :=
  ∃ runs : List (List XmlNode), nodes = runs.flatten ∧
    List.Forall₂ (fun shape run => shape.occurrence.Admits run.length ∧
      ∀ node ∈ run, (Pattern.xml shape).Accepts node.toValue r) shapes runs

namespace Engine

variable {e : Engine} {r : Resolver} {shape : XmlShape Pattern} {shapes : List (XmlShape Pattern)}
  {node : XmlNode} {nodes run : List XmlNode} {n m : Nat}

/-- An element accepts only nodes of its name. -/
theorem name_of_accepts (h : (Pattern.xml shape).Accepts node.toValue r) :
    node.name = shape.name := by
  obtain ⟨n, hn⟩ := h
  cases n with
  | zero => exact absurd hn not_succeeds_none
  | succ n =>
    rw [check_node] at hn
    have hn : Succeeds ((ofBudget n).checkXml shape node.toValue r) := hn
    by_contra hne
    simp [checkXml, XmlNode.toValue, hne] at hn

/-! ## Runs and splittings -/

/-- What is taken on a budget is taken on every larger one. -/
theorem TakesRun.mono (h : (ofBudget n).TakesRun r shape run) (hm : n ≤ m) :
    (ofBudget m).TakesRun r shape run :=
  ⟨h.admits, fun node hn => ((ofBudget_below hm).check (Value.equal_self _) (.refl r)).succeeds
    (h.accepted node hn)⟩

/-- What is a run on some budget is a run on every larger one. -/
theorem Runs.mono (h : Runs ((ofBudget n).TakesRun r) shapes nodes) (hm : n ≤ m) :
    Runs ((ofBudget m).TakesRun r) shapes nodes :=
  h.imp_of_mem fun _ _ _ ht => ht.mono hm

/-- The runs that are taken on a budget are a splitting. -/
theorem splits_of_runs (h : Runs ((ofBudget n).TakesRun r) shapes nodes) :
    Pattern.Splits shapes nodes r := by
  induction h with
  | nil => exact ⟨[], rfl, .nil⟩
  | @cons shape shapes run rest _ taken _ ih =>
    obtain ⟨runs, rfl, hruns⟩ := ih
    exact ⟨run :: runs, rfl, .cons ⟨taken.admits, fun node hn => ⟨n, taken.accepted node hn⟩⟩ hruns⟩

/-- The runs of a splitting are all taken on some budget. -/
theorem exists_runs_of_splits (h : Pattern.Splits shapes nodes r) :
    ∃ n, Runs ((ofBudget n).TakesRun r) shapes nodes := by
  obtain ⟨runs, rfl, hruns⟩ := h
  induction hruns with
  | nil => exact ⟨0, .nil⟩
  | @cons shape run shapes runs hrun _ ih =>
    obtain ⟨hadmits, haccepts⟩ := hrun
    obtain ⟨n, hn⟩ := Pattern.exists_common_budget haccepts
    obtain ⟨m, hm⟩ := ih
    have hrun : (ofBudget n).TakesRun r shape run := ⟨hadmits, hn⟩
    exact ⟨max n m, .cons (fun node hnode => name_of_accepts (haccepts node hnode))
      (hrun.mono (Nat.le_max_left n m)) (hm.mono (Nat.le_max_right n m))⟩

/-! ## Content -/

section
variable {values : List Value} (hchildren : ∀ p ∈ shape.children, ∃ child, p = .xml child)
  (hnames : ((elements shape.children).map (·.name)).Nodup)
include hchildren hnames

/-- The content is matched if the nodes split into a run for each element that is declared. -/
theorem succeeds_checkContent_iff_runs : Succeeds (e.checkContent shape values r) ↔
    Runs (e.TakesRun r) (elements shape.children) (elementsOf values) := by
  have hany : .anything ∉ shape.children := fun h => by
    obtain ⟨child, hc⟩ := hchildren _ h
    cases hc
  rw [succeeds_checkContent_iff hany hnames, fitsContent_elements_iff hchildren]

/-- The content of a node is accepted on some budget exactly if its nodes can be split. -/
theorem exists_succeeds_checkContent_iff :
    (∃ n, Succeeds ((ofBudget n).checkContent shape values r)) ↔
      Pattern.Splits (elements shape.children) (elementsOf values) r := by
  simp only [succeeds_checkContent_iff_runs hchildren hnames]
  exact ⟨fun ⟨_, h⟩ => splits_of_runs h, exists_runs_of_splits⟩

end

/-- A larger budget does not change whether content is accepted. -/
theorem isSuccess_checkContent_eq {values : List Value} {a b : MatchResult}
    (ha : (ofBudget n).checkContent shape values r = some a)
    (hb : (ofBudget m).checkContent shape values r = some b) : a.isSuccess = b.isSuccess := by
  have hvalues : List.Forall₂ (fun v w : Value => v.equal w = true) values values :=
    List.forall₂_same.2 fun v _ => v.equal_self
  obtain ⟨c, hc, hac⟩ :=
    (ofBudget_below (Nat.le_max_left n m)).checkContent (.refl r) shape hvalues a ha
  obtain ⟨d, hd, hbd⟩ :=
    (ofBudget_below (Nat.le_max_right n m)).checkContent (.refl r) shape hvalues b hb
  rw [hc] at hd
  cases hd
  exact hac.trans hbd.symm

/-- A node of the name of an element that cannot be nil is accepted if its attributes and its
content are. -/
theorem accepts_iff_attributes_content (htype : shape.typeRef = none)
    (hnil : shape.nillable = false) (hname : node.name = shape.name) :
    (Pattern.xml shape).Accepts node.toValue r ↔
      (∃ n, Succeeds ((ofBudget n).checkAttributes shape node.attributes r)) ∧
        ∃ n, Succeeds ((ofBudget n).checkContent shape node.children r) := by
  have hstep (n : Nat) : Succeeds ((ofBudget (n + 1)).check (.xml shape) node.toValue r) ↔
      Succeeds ((ofBudget n).checkAttributes shape node.attributes r) ∧
        Succeeds ((ofBudget n).checkContent shape node.children r) := by
    rw [check_node]
    show Succeeds ((ofBudget n).checkXml shape node.toValue r) ↔ _
    unfold checkXml XmlNode.toValue
    simp only [hname, ne_eq, not_true_eq_false, if_false, XmlShape.effective_of_untyped htype, hnil,
      Bool.false_and]
    cases (ofBudget n).checkAttributes shape node.attributes r <;>
      cases (ofBudget n).checkContent shape node.children r <;> simp
  constructor
  · rintro ⟨n, hn⟩
    cases n with
    | zero => exact absurd hn not_succeeds_none
    | succ n => exact ⟨⟨n, ((hstep n).1 hn).1⟩, n, ((hstep n).1 hn).2⟩
  · rintro ⟨⟨n, hn⟩, m, hm⟩
    have hvalues : List.Forall₂ (fun v w : Value => v.equal w = true) node.children node.children :=
      List.forall₂_same.2 fun v _ => v.equal_self
    refine ⟨max n m + 1, (hstep _).2 ⟨?_, ?_⟩⟩
    · exact ((ofBudget_below (Nat.le_max_left n m)).checkAttributes (.refl r) shape _).succeeds hn
    · exact
        ((ofBudget_below (Nat.le_max_right n m)).checkContent (.refl r) shape hvalues).succeeds hm

/-- Matching the children in one pass: the content is accepted exactly if its nodes can be split
into runs for the elements, and what ends otherwise is a failure. For a node of the name of an
element that cannot be nil this and its attributes decide. -/
theorem succeeds_checkContent_iff_splits (htype : shape.typeRef = none)
    (hnil : shape.nillable = false) (hchildren : ∀ p ∈ shape.children, ∃ child, p = .xml child)
    (hnames : ((elements shape.children).map (·.name)).Nodup) (hname : node.name = shape.name) :
    ((∃ n, Succeeds ((ofBudget n).checkContent shape node.children r)) ↔
        Pattern.Splits (elements shape.children) (elementsOf node.children) r) ∧
      (∀ n m, (ofBudget n).checkContent shape node.children r = some m →
        (m = .success ↔ Pattern.Splits (elements shape.children) (elementsOf node.children) r)) ∧
      ((Pattern.xml shape).Accepts node.toValue r ↔
        (∃ n, Succeeds ((ofBudget n).checkAttributes shape node.attributes r)) ∧
          Pattern.Splits (elements shape.children) (elementsOf node.children) r) := by
  have hiff : (∃ n, Succeeds ((ofBudget n).checkContent shape node.children r)) ↔
      Pattern.Splits (elements shape.children) (elementsOf node.children) r :=
    exists_succeeds_checkContent_iff hchildren hnames
  refine ⟨hiff, fun n m hm => ?_, ?_⟩
  · rw [← hiff, ← isSuccess_iff]
    constructor
    · exact fun hs => ⟨n, hm ▸ succeeds_some.2 hs⟩
    · rintro ⟨k, hk⟩
      exact isSuccess_checkContent_eq hm hk
  · rw [accepts_iff_attributes_content htype hnil hname, hiff]

/-- A parcel has a sender, perhaps a note, and any number of items. -/
def parcel : XmlShape Pattern :=
  ⟨"parcel", [], [.xml (Pattern.textElement "from" (.string .any) .once false),
    .xml (Pattern.textElement "note" (.string .any) .optional false),
    .xml (Pattern.textElement "item" (.number .any) .multiple false)], .once, false, none⟩

/-- A parcel without a note, with two items and text between the nodes. -/
def filledParcel : XmlNode :=
  ⟨"parcel", [], [.xml "from" [] [.string "Ada"], .string "and", .xml "item" [] [.string "1"],
    .xml "item" [] [.string "2"]]⟩

/-- Its nodes are the sender, no note, and the two items, so the parcel is accepted. -/
theorem filledParcel_accepted :
    (parcel.typeRef = none ∧ parcel.nillable = false ∧
        (∀ p ∈ parcel.children, ∃ child, p = .xml child) ∧
        ((elements parcel.children).map (·.name)).Nodup ∧ filledParcel.name = parcel.name) ∧
      Pattern.Splits (elements parcel.children) (elementsOf filledParcel.children) .empty ∧
      (Pattern.xml parcel).Accepts filledParcel.toValue .empty := by
  have hchildren : ∀ p ∈ parcel.children, ∃ child, p = .xml child := by simp [parcel]
  have hnames : ((elements parcel.children).map (·.name)).Nodup := by decide
  have hsplits : Pattern.Splits (elements parcel.children) (elementsOf filledParcel.children)
      .empty := by
    refine ⟨[[⟨"from", [], [.string "Ada"]⟩], [],
      [⟨"item", [], [.string "1"]⟩, ⟨"item", [], [.string "2"]⟩]], rfl,
      .cons ⟨rfl, ?_⟩ (.cons ⟨Nat.zero_le 1, nofun⟩ (.cons ⟨trivial, ?_⟩ .nil))⟩
    · exact List.forall_mem_singleton.2 ⟨2, rfl⟩
    · exact List.forall_mem_cons.2 ⟨⟨2, rfl⟩, List.forall_mem_singleton.2 ⟨2, rfl⟩⟩
  exact ⟨⟨rfl, rfl, hchildren, hnames, rfl⟩, hsplits, (succeeds_checkContent_iff_splits rfl rfl
    hchildren hnames rfl).2.2.2 ⟨⟨1, rfl⟩, hsplits⟩⟩

end Engine

end DataContract
