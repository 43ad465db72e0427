import DataContract.Matching.Xml
import DataContract.Proofs.Verdict
import Mathlib.Data.List.TakeDrop
import Mathlib.Data.List.TakeWhile

/-!
# Runs of nodes

Matching takes the nodes inside a node in one pass, for each element pattern as many of the next
ones as it can. `Engine.Runs` says without the pass what there has to be: the nodes are, one after
the other, a run for each pattern, nodes of its name that it takes together. Where the names of the
patterns are different the pass finds these runs if there are any (`Engine.checkChildren_iff`), and
the run of a pattern is made of all nodes of its name (`Engine.Runs.filter`).
-/

namespace DataContract

/-- The numbers of nodes that an occurrence admits. -/
def Occurrence.Admits : Occurrence → Nat → Prop
  | .once, n => n = 1
  | .optional, n => n ≤ 1
  | .multiple, _ => True

/-- What does not exceed another occurrence admits no other numbers. -/
theorem Occurrence.Admits.of_not_exceeds {a b : Occurrence} {n : Nat} (h : b.Admits n)
    (hab : b.exceeds a = false) : a.Admits n := by
  cases b with
  | multiple => cases a <;> first | exact h | cases hab
  | optional => cases a <;> first | exact h | trivial
  | once => cases a <;> first | exact h | trivial | exact Nat.le_of_eq h

namespace Pattern

/-- The element patterns among the children of an element. -/
def elements (children : List Pattern) : List (XmlShape Pattern) :=
  children.filterMap fun
    | .xml shape => some shape
    | _ => none

/-- The elements among the children are the children that are elements. -/
theorem mem_elements {children : List Pattern} {shape : XmlShape Pattern} :
    shape ∈ elements children ↔ .xml shape ∈ children := by
  rw [elements, List.mem_filterMap]
  constructor
  · rintro ⟨p, hp, h⟩
    cases p with
    | xml => cases h; exact hp
    | _ => cases h
  · exact fun h => ⟨_, h, rfl⟩

/-- Lists of elements in the same places have related shapes if the patterns are related. -/
theorem forall₂_elements {R : Pattern → Pattern → Prop}
    {R' : XmlShape Pattern → XmlShape Pattern → Prop} {ps qs : List Pattern}
    (h : List.Forall₂ R ps qs) (hR : ∀ p ∈ ps, ∀ q ∈ qs, R p q →
      ∃ c d, p = .xml c ∧ q = .xml d ∧ R' c d) : List.Forall₂ R' (elements ps) (elements qs) := by
  induction h with
  | nil => exact .nil
  | cons hpq _ ih =>
    obtain ⟨c, d, rfl, rfl, hcd⟩ := hR _ List.mem_cons_self _ List.mem_cons_self hpq
    refine .cons hcd (ih fun p hp q hq => ?_)
    exact hR p (List.mem_cons_of_mem _ hp) q (List.mem_cons_of_mem _ hq)

@[simp] theorem elements_append (before after : List Pattern) :
    elements (before ++ after) = elements before ++ elements after :=
  List.filterMap_append

@[simp] theorem elements_xml_cons (shape : XmlShape Pattern) (children : List Pattern) :
    elements (.xml shape :: children) = shape :: elements children := rfl

end Pattern

namespace Engine

open Pattern (elements)

/-- The nodes are, one after the other, a run for each element: nodes of its name that it takes. -/
inductive Runs (takes : XmlShape Pattern → List XmlNode → Prop) :
    List (XmlShape Pattern) → List XmlNode → Prop where
  | nil : Runs takes [] []
  | cons {shape : XmlShape Pattern} {shapes : List (XmlShape Pattern)} {run rest : List XmlNode}
      (names : ∀ node ∈ run, node.name = shape.name) (taken : takes shape run)
      (later : Runs takes shapes rest) : Runs takes (shape :: shapes) (run ++ rest)

variable {takes : XmlShape Pattern → List XmlNode → Prop} {shape : XmlShape Pattern}
  {shapes : List (XmlShape Pattern)} {nodes run rest : List XmlNode} {node : XmlNode}

/-- Every node is of the name of some element. -/
theorem Runs.exists_of_mem (h : Runs takes shapes nodes) (hn : node ∈ nodes) :
    ∃ shape ∈ shapes, shape.name = node.name := by
  induction h with
  | nil => cases hn
  | cons names _ _ ih =>
    rcases List.mem_append.1 hn with hn | hn
    · exact ⟨_, List.mem_cons_self, (names node hn).symm⟩
    · obtain ⟨shape, hs, he⟩ := ih hn
      exact ⟨shape, List.mem_cons_of_mem _ hs, he⟩

/-- The nodes of later elements have other names than the first one. -/
theorem Runs.name_ne (h : Runs takes shapes rest)
    (hnames : ((shape :: shapes).map (·.name)).Nodup) (hn : node ∈ rest) :
    node.name ≠ shape.name := by
  obtain ⟨other, hother, he⟩ := h.exists_of_mem hn
  rw [List.map_cons, List.nodup_cons] at hnames
  exact fun hname => hnames.1 (hname ▸ he ▸ List.mem_map_of_mem hother)

/-- An element takes all nodes of its name, if no other one has the same name. -/
theorem Runs.filter (h : Runs takes shapes nodes) (hnames : (shapes.map (·.name)).Nodup)
    (hs : shape ∈ shapes) : takes shape (nodes.filter (·.name = shape.name)) := by
  induction h with
  | nil => cases hs
  | @cons first shapes run rest names taken later ih =>
    rw [List.filter_append]
    rcases List.mem_cons.1 hs with rfl | hs
    · have hrest : rest.filter (·.name = shape.name) = [] :=
        List.filter_eq_nil_iff.2 fun node hn => by simpa using later.name_ne hnames hn
      rw [hrest, List.append_nil, List.filter_eq_self.2 fun node hn => by simpa using names node hn]
      exact taken
    · have hne : first.name ≠ shape.name := fun he =>
        (List.nodup_cons.1 hnames).1 (List.mem_map.2 ⟨shape, hs, he.symm⟩)
      have hrun : run.filter (·.name = shape.name) = [] :=
        List.filter_eq_nil_iff.2 fun node hn => by simpa [names node hn] using hne
      rw [hrun, List.nil_append]
      exact ih (List.nodup_cons.1 hnames).2 hs

/-- The same runs are taken by whatever takes every one of them. -/
theorem Runs.imp_of_mem {takes' : XmlShape Pattern → List XmlNode → Prop}
    (h : Runs takes shapes nodes)
    (himp : ∀ shape run, (∀ node ∈ run, node ∈ nodes) → takes shape run → takes' shape run) :
    Runs takes' shapes nodes := by
  induction h with
  | nil => exact .nil
  | cons names taken _ ih =>
    refine .cons names (himp _ _ (fun node hn => List.mem_append_left _ hn) taken) ?_
    exact ih fun shape run hrun =>
      himp shape run fun node hn => List.mem_append_right _ (hrun node hn)

/-- Elements in the same places take the same runs if the ones take what the others take. -/
theorem Runs.forall₂ {takes' : XmlShape Pattern → List XmlNode → Prop}
    {others : List (XmlShape Pattern)} (h : Runs takes shapes nodes)
    (hall : List.Forall₂ (fun other shape => other.name = shape.name ∧
      ∀ run, takes shape run → takes' other run) others shapes) : Runs takes' others nodes := by
  induction h generalizing others with
  | nil =>
    cases hall
    exact .nil
  | cons names taken _ ih =>
    cases hall with
    | cons hfirst hrest =>
      exact .cons (fun node hn => (names node hn).trans hfirst.1.symm) (hfirst.2 _ taken) (ih hrest)

/-! ## The pass over the nodes -/

/-- The run that is taken from the front is of the name and, unless one is needed and there is none,
of a length that the occurrence admits. -/
theorem takeRun_spec {name : String} {occurrence : Occurrence}
    (h : takeRun name occurrence nodes = (run, rest)) :
    run ++ rest = nodes ∧ (∀ node ∈ run, node.name = name) ∧
      (¬ (run.isEmpty = true ∧ occurrence = .once) → occurrence.Admits run.length) := by
  cases occurrence with
  | multiple =>
    rw [takeRun, List.span_eq_takeWhile_dropWhile] at h
    cases h
    refine ⟨List.takeWhile_append_dropWhile, fun node hn => ?_, fun _ => trivial⟩
    simpa using List.mem_takeWhile_imp hn
  | once | optional =>
    cases nodes with
    | nil =>
      cases h
      simp [Occurrence.Admits]
    | cons node nodes =>
      simp only [takeRun] at h
      split at h
      · next hname =>
        cases h
        simp [hname, Occurrence.Admits]
      · cases h
        simp [Occurrence.Admits]

/-- A run of the name that the occurrence admits is taken where no node of the name follows. -/
theorem takeRun_append {name : String} {occurrence : Occurrence}
    (hnames : ∀ node ∈ run, node.name = name) (hadmits : occurrence.Admits run.length)
    (hrest : ∀ node ∈ rest, node.name ≠ name) :
    takeRun name occurrence (run ++ rest) = (run, rest) := by
  cases occurrence with
  | multiple =>
    rw [takeRun, List.span_eq_takeWhile_dropWhile,
      List.takeWhile_append_of_pos (by simpa using hnames),
      List.dropWhile_append_of_pos (by simpa using hnames)]
    cases rest with
    | nil => simp
    | cons node rest => simp [hrest node List.mem_cons_self]
  | once =>
    obtain ⟨node, rfl⟩ := List.length_eq_one_iff.1 hadmits
    simp [takeRun, hnames node List.mem_cons_self]
  | optional =>
    rcases run with _ | ⟨node, _ | ⟨other, run⟩⟩
    · cases rest with
      | nil => rfl
      | cons node rest => simp [takeRun, hrest node List.mem_cons_self]
    · simp [takeRun, hnames node List.mem_cons_self]
    · exact absurd hadmits (by simp [Occurrence.Admits])

variable {e : Engine} {r : Resolver} {patterns : List Pattern}

/-- The engine takes the nodes for an element: as many as its occurrence admits, and it accepts each
of them. -/
structure TakesRun (e : Engine) (r : Resolver) (shape : XmlShape Pattern) (run : List XmlNode) :
    Prop where
  admits : shape.occurrence.Admits run.length
  accepted : ∀ node ∈ run, Succeeds (e.check (.xml shape) node.toValue r)

/-- The pass takes the nodes for the first element if it may end with them, and goes on with the
others. -/
theorem checkChildren_xml_iff (hrun : takeRun shape.name shape.occurrence nodes = (run, rest)) :
    (∃ results, e.checkChildren r (.xml shape :: patterns) nodes = some (results, []) ∧
        results.all MatchResult.isSuccess = true) ↔
      e.TakesRun r shape run ∧ ∃ results, e.checkChildren r patterns rest = some (results, []) ∧
        results.all MatchResult.isSuccess = true := by
  have hspec := (takeRun_spec hrun).2.2
  simp only [checkChildren, hrun]
  constructor
  · rintro ⟨results, h, hall⟩
    obtain ⟨taken, htaken, h⟩ := Option.bind_eq_some_iff.1 h
    obtain ⟨⟨later, left⟩, hlater, h⟩ := Option.bind_eq_some_iff.1 h
    cases h
    simp only [List.all_append, Bool.and_eq_true] at hall
    obtain ⟨⟨htakenAll, habsent⟩, hlaterAll⟩ := hall
    refine ⟨⟨hspec fun hempty => ?_, fun node hn => ?_⟩, later, hlater, hlaterAll⟩
    · simp [hempty] at habsent
    · exact succeeds_map_under.1 ((all_isSuccess_iff htaken).1 htakenAll node hn)
  · rintro ⟨⟨hadmits, haccepted⟩, later, hlater, hlaterAll⟩
    have hsome (node : XmlNode) (hn : node ∈ run) :
        (e.check (.xml shape) node.toValue r).map (·.under shape.name) = some .success := by
      rw [haccepted node hn]
      rfl
    obtain ⟨taken, htaken⟩ := exists_traverse? fun node hn => ⟨_, hsome node hn⟩
    have htakenAll := (all_isSuccess_iff htaken).2 hsome
    have hpresent : ¬ ((run.isEmpty && shape.occurrence = .once) = true) := by
      rw [Bool.and_eq_true, decide_eq_true_eq, List.isEmpty_iff]
      rintro ⟨hempty, honce⟩
      rw [hempty, honce] at hadmits
      cases hadmits
    refine ⟨taken ++ [] ++ later, ?_, by simp [htakenAll, hlaterAll]⟩
    rw [htaken, hlater, if_neg hpresent]
    rfl

/-- Elements of different names take the nodes in one pass exactly when these are runs for them. -/
theorem checkChildren_iff (hany : .anything ∉ patterns)
    (hnames : ((elements patterns).map (·.name)).Nodup) :
    (∃ results, e.checkChildren r patterns nodes = some (results, []) ∧
        results.all MatchResult.isSuccess = true) ↔
      (∀ p ∈ patterns, ∃ shape, p = .xml shape) ∧
        Runs (e.TakesRun r) (elements patterns) nodes := by
  induction patterns generalizing nodes with
  | nil =>
    constructor
    · rintro ⟨results, h, -⟩
      cases h
      exact ⟨nofun, .nil⟩
    · rintro ⟨-, hruns⟩
      cases hruns
      exact ⟨[], rfl, rfl⟩
  | cons p patterns ih =>
    have hany' : .anything ∉ patterns := fun h => hany (List.mem_cons_of_mem _ h)
    cases p with
    | xml shape =>
      have ih {nodes : List XmlNode} := @ih nodes hany' (List.nodup_cons.1 hnames).2
      have hcons : (∀ p ∈ Pattern.xml shape :: patterns, ∃ shape, p = .xml shape) ↔
          ∀ p ∈ patterns, ∃ shape, p = .xml shape := by simp
      rw [hcons, Pattern.elements_xml_cons]
      constructor
      · intro h
        obtain ⟨run, rest, hrun⟩ :
            ∃ run rest, takeRun shape.name shape.occurrence nodes = (run, rest) := ⟨_, _, rfl⟩
        obtain ⟨rfl, hname, -⟩ := takeRun_spec hrun
        obtain ⟨htakes, hlater⟩ := (checkChildren_xml_iff hrun).1 h
        obtain ⟨hall, hruns⟩ := ih.1 hlater
        exact ⟨hall, .cons hname htakes hruns⟩
      · rintro ⟨hall, hruns⟩
        cases hruns with
        | cons hname htakes hlater =>
          have hrun := takeRun_append hname htakes.admits fun node hn => hlater.name_ne hnames hn
          exact (checkChildren_xml_iff hrun).2 ⟨htakes, ih.2 ⟨hall, hlater⟩⟩
    | anything => exact absurd List.mem_cons_self hany
    | _ =>
      refine iff_of_false ?_ fun h => ?_
      · rintro ⟨results, h, hall⟩
        obtain ⟨⟨later, left⟩, -, h⟩ := Option.bind_eq_some_iff.1 h
        cases h
        simp at hall
      · obtain ⟨shape, he⟩ := h.1 _ List.mem_cons_self
        cases he

end Engine

end DataContract
