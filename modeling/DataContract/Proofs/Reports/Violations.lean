import DataContract.Proofs.Reports.Lines
import DataContract.Engine
import DataContract.Scalar.Matching
import Mathlib.Data.List.Nodup

/-!
# Violations

What a report speaks of: a fault and the place of the value that has it. A list of results tells of
violations if its lines are those of the violations, each of them once and in order
(`MatchResult.Tells`). What results tell of is put together like the results themselves: one list
after the other, one result around them all, and the results for the parts of a value, each under
the step to its part (`MatchResult.exists_tells_traverse?`).
-/

namespace DataContract

/-- The message of a failure. -/
def MatchResult.message : MatchResult → String
  | .success => ""
  | .failure f => f.message

/-- A step from a value into a part of it. -/
inductive Step where
  | key (name : String)
  | index (i : Nat)
deriving DecidableEq, Repr

/-- The breadcrumb of a step. -/
def Step.crumb : Step → String
  | key name => name
  | index i => indexCrumb i

/-- What is wrong with a value, whatever is wrong with its parts. -/
inductive Fault where
  /-- The value is none of the scalar. -/
  | scalar (kind : Scalar) (v : Value)
  /-- The value is no object or no array, and the pattern is one of these. -/
  | shape (p : Pattern) (v : Value)
  /-- The array is not of the right length. -/
  | length (expected actual : Nat)
  /-- The array is too short. -/
  | few (min actual : Nat)
  /-- The object has a key that is not declared. -/
  | undeclared (name : String)
  /-- The object does not have a mandatory key. -/
  | missing (name : String)

namespace Fault

/-- The fault in words. -/
def message (words : KeyMessages) : Fault → String
  | scalar kind v => (kind.check v).message
  | shape p v => s!"Expected {p.typeName}, actual was {v.display}"
  | length expected actual => s!"Expected an array of length {expected}, actual length {actual}"
  | few min actual => s!"Expected at least {min} element(s), actual length {actual}"
  | undeclared name => words.unexpected name
  | missing name => words.missing name

/-- The key that a fault of an object is about. -/
def key? : Fault → Option String
  | undeclared name => some name
  | missing name => some name
  | _ => none

/-- Where a fault of an object comes among all that is wrong there. -/
def stage? : Fault → Option Nat
  | undeclared _ => some 0
  | missing _ => some 1
  | _ => none

/-- Where the fault of a value at the first place comes among all that is wrong with an object at
the second one: first the keys that are not declared, then those that are missing, then what is
wrong inside the values. -/
def stageAt? (fault : Fault) : List Step → List Step → Option Nat
  | [], [] => fault.stage?
  | [], _ :: _ => none
  | _ :: _, [] => some 2
  | s :: place, t :: object => if s = t then fault.stageAt? place object else none

end Fault

/-- A fault and the steps from the root to the value that has it. -/
structure Violation where
  place : List Step
  fault : Fault

namespace Violation

variable {x y : Violation} {s t : Step} {f g : Fault} {words : KeyMessages}

/-- A violation of the whole value. -/
def root (f : Fault) : Violation := ⟨[], f⟩

/-- A violation of a part of a value, seen from the value. -/
def inside (s : Step) (x : Violation) : Violation :=
  { x with place := s :: x.place }

/-- The breadcrumbs from the root: those of the steps, and the key if the fault is about one. -/
def crumbs (x : Violation) : List String :=
  x.place.map Step.crumb ++ x.fault.key?.toList

/-- The line of a report about the violation. -/
def line (words : KeyMessages) (x : Violation) : FailureLine :=
  ⟨Failure.pathOf x.crumbs, x.fault.message words⟩

/-- At no object does the second violation come before the first one. -/
def InOrder (x y : Violation) : Prop :=
  ∀ object, ∀ a ∈ x.fault.stageAt? x.place object, ∀ b ∈ y.fault.stageAt? y.place object, a ≤ b

/-- The violations are two, and they are in order. -/
def Before (x y : Violation) : Prop :=
  x ≠ y ∧ x.InOrder y

/-! ## Order -/

/-- What is wrong with the keys of an object comes no later than what is wrong inside its values. -/
theorem le_two_of_stage? {n : Nat} (h : n ∈ f.stage?) : n ≤ 2 := by
  cases f <;> simp [Fault.stage?] at h <;> omega

/-- Of two faults of the whole value the one with the lower stage is first. -/
theorem before_root (hne : f ≠ g) (h : ∀ a ∈ f.stage?, ∀ b ∈ g.stage?, a ≤ b) :
    (root f).Before (root g) := by
  refine ⟨fun he => hne (congrArg fault he), fun object a ha b hb => ?_⟩
  cases object with
  | nil => exact h a ha b hb
  | cons t object => cases ha

/-- What is wrong with the whole value is before what is wrong inside. -/
theorem before_inside_of_root (f : Fault) (s : Step) (y : Violation) :
    (root f).Before (y.inside s) := by
  refine ⟨fun he => (nomatch congrArg place he), fun object a ha b hb => ?_⟩
  cases object with
  | nil =>
    cases hb
    exact le_two_of_stage? ha
  | cons t object => cases ha

/-- What is wrong inside different parts is in order, whichever is first. -/
theorem before_of_ne (hst : s ≠ t) (x y : Violation) : (x.inside s).Before (y.inside t) := by
  refine ⟨fun he => hst (List.cons_eq_cons.1 (congrArg place he)).1, fun object a ha b hb => ?_⟩
  cases object with
  | nil =>
    cases ha
    cases hb
    exact Nat.le_refl _
  | cons u object =>
    obtain ⟨rfl, -⟩ := Option.ite_none_right_eq_some.1 ha
    exact absurd (Option.ite_none_right_eq_some.1 hb).1.symm hst

/-- Descending by one step loses nothing about the violation found below. -/
theorem inside_injective (s : Step) : Function.Injective (inside s) := by
  intro x y he
  cases x
  cases y
  cases he
  rfl

/-- What is in order stays in order seen from a value around it. -/
theorem Before.inside (h : x.Before y) (s : Step) : (x.inside s).Before (y.inside s) := by
  refine ⟨fun he => h.1 (inside_injective s he), fun object a ha b hb => ?_⟩
  cases object with
  | nil =>
    cases ha
    cases hb
    exact Nat.le_refl _
  | cons u object =>
    exact h.2 object a (Option.ite_none_right_eq_some.1 ha).2 b
      (Option.ite_none_right_eq_some.1 hb).2

/-- The line of a violation inside a part has the breadcrumb of the part in front of its path. -/
theorem line_inside (words : KeyMessages) (s : Step) (x : Violation) :
    (x.inside s).line words = (x.line words).under s.crumb := rfl

end Violation

namespace MatchResult

open Violation (root inside)

variable {words : KeyMessages} {results results' : List MatchResult} {result : MatchResult}
  {S T : Violation → Prop}

/-- The lines of the results are those of the violations of a kind, all of them and each once, and
the violations are in order. -/
def Tells (words : KeyMessages) (results : List MatchResult) (S : Violation → Prop) : Prop :=
  ∃ xs : List Violation, results.flatMap lines = xs.map (·.line words) ∧
    xs.Pairwise Violation.Before ∧ ∀ x, x ∈ xs ↔ S x

namespace Tells

/-- What tells a set of violations tells every set with the same members. -/
theorem congr (h : Tells words results S) (hS : ∀ x, S x ↔ T x) : Tells words results T := by
  obtain ⟨xs, hlines, hbefore, hmem⟩ := h
  exact ⟨xs, hlines, hbefore, fun x => (hmem x).trans (hS x)⟩

/-- Without violations there are no lines. -/
theorem nil (hS : ∀ x, ¬ S x) : Tells words [] S :=
  ⟨[], rfl, .nil, fun x => iff_of_false List.not_mem_nil (hS x)⟩

/-- Results told one after the other tell both sets, where the first set comes before the second. -/
theorem append (h : Tells words results S) (h' : Tells words results' T)
    (hbefore : ∀ x y, S x → T y → x.Before y) :
    Tells words (results ++ results') fun x => S x ∨ T x := by
  obtain ⟨xs, hlines, hxs, hmem⟩ := h
  obtain ⟨ys, hlines', hys, hmem'⟩ := h'
  refine ⟨xs ++ ys, ?_, List.pairwise_append.2 ⟨hxs, hys, fun x hx y hy => ?_⟩, fun x => ?_⟩
  · rw [List.flatMap_append, List.map_append, hlines, hlines']
  · exact hbefore x y ((hmem x).1 hx) ((hmem' y).1 hy)
  · rw [List.mem_append, hmem, hmem']

/-- An aggregate tells of what its parts tell of. -/
theorem all (h : Tells words results S) : Tells words [.all results] S := by
  obtain ⟨xs, hlines, hxs⟩ := h
  exact ⟨xs, by rw [List.flatMap_singleton, lines_all, hlines], hxs⟩

/-- A success tells of nothing. -/
theorem success (hS : ∀ x, ¬ S x) : Tells words [.success] S :=
  (nil hS).all

/-- A failure with a single message tells of the one violation that is worded like this. -/
theorem fail {f : Fault} (hS : ∀ x, S x ↔ x = root f) (hkey : f.key? = none) :
    Tells words [.fail (f.message words)] S := by
  refine ⟨[root f], ?_, List.pairwise_singleton _ _, fun x => by rw [List.mem_singleton, hS]⟩
  rw [List.map_singleton, Violation.line, Violation.crumbs, root, hkey]
  rfl

/-- A result under the step to a part tells of the violations of the part seen from outside. -/
theorem under (h : Tells words [result] S) (s : Step) :
    Tells words [result.under s.crumb] fun x => ∃ y, S y ∧ y.inside s = x := by
  obtain ⟨xs, hlines, hbefore, hmem⟩ := h
  refine ⟨xs.map (inside s), ?_, ?_, fun x => ?_⟩
  · rw [List.flatMap_singleton] at hlines ⊢
    rw [lines_under, hlines, List.map_map, List.map_map]
    exact List.map_congr_left fun x _ => (Violation.line_inside words s x).symm
  · exact List.pairwise_map.2 (hbefore.imp fun hxy => hxy.inside s)
  · simp only [List.mem_map, hmem]

end Tells

/-- Messages about keys tell of one fault for each key. -/
theorem tells_keys {names : List String} (hnames : names.Nodup) (fault : String → Fault)
    (hkey : ∀ name, (fault name).key? = some name)
    (hstage : ∀ a b, (fault a).stage? = (fault b).stage?) (words : KeyMessages) :
    Tells words (names.map fun name => (fail ((fault name).message words)).under name)
      fun x => ∃ name ∈ names, root (fault name) = x := by
  refine ⟨names.map fun name => root (fault name), ?_, ?_, fun x => List.mem_map⟩
  · rw [List.flatMap_map, List.map_map, List.map_eq_flatMap]
    congr 1
    funext name
    rw [Function.comp_apply, Violation.line, Violation.crumbs, root, hkey, lines_under]
    rfl
  · refine List.pairwise_map.2 (hnames.imp fun {a b} hab => Violation.before_root ?_ ?_)
    · intro he
      have hkeys : some a = some b := by rw [← hkey a, he, hkey]
      exact hab (Option.some_inj.1 hkeys)
    · intro i hi j hj
      have hstages : some i = some j := by rw [← hi, hstage a b, hj]
      exact Nat.le_of_eq (Option.some_inj.1 hstages)

/-- Where there is an answer for every part, the traversal of the parts has answers that tell of
what is wrong inside them. -/
theorem exists_tells_traverse? {α : Type} {l : List α} {f : α → Option MatchResult}
    {step : α → Step} {S : α → Violation → Prop} (hsteps : l.Pairwise fun a b => step a ≠ step b)
    (h : ∀ a ∈ l, ∃ m, f a = some (m.under (step a).crumb) ∧ Tells words [m] (S a)) :
    ∃ ms, traverse? f l = some ms ∧
      Tells words ms fun x => ∃ a ∈ l, ∃ y, S a y ∧ y.inside (step a) = x := by
  induction l with
  | nil => exact ⟨[], rfl, .nil (by simp)⟩
  | cons a l ih =>
    obtain ⟨ha, hsteps⟩ := List.pairwise_cons.1 hsteps
    obtain ⟨m, hm, htells⟩ := h a List.mem_cons_self
    obtain ⟨ms, hms, hothers⟩ := ih hsteps fun b hb => h b (List.mem_cons_of_mem _ hb)
    refine ⟨m.under (step a).crumb :: ms, by rw [traverse?, hm, hms]; rfl, ?_⟩
    refine ((htells.under (step a)).append hothers ?_).congr fun x => by
      simp only [List.exists_mem_cons_iff]
    rintro _ _ ⟨y, -, rfl⟩ ⟨b, hb, z, -, rfl⟩
    exact Violation.before_of_ne (ha b hb) y z

/-- Where there is an answer for every item of a list, the traversal of the list with its indices
has answers that tell of what is wrong inside the items. -/
theorem exists_tells_zipIdx {α : Type} {l : List α} {f : α → Nat → Option MatchResult}
    {S : α → Violation → Prop}
    (h : ∀ a ∈ l, ∃ m, (∀ i, f a i = some (m.under (indexCrumb i))) ∧ Tells words [m] (S a)) :
    ∃ ms, traverse? (fun a => f a.1 a.2) l.zipIdx = some ms ∧ Tells words ms fun x =>
      ∃ i a, l[i]? = some a ∧ ∃ y, S a y ∧ y.inside (.index i) = x := by
  have hindices : (l.zipIdx.map (·.2)).Nodup := by
    rw [List.zipIdx_map_snd]
    exact List.nodup_range'
  have hsteps : l.zipIdx.Pairwise fun a b => Step.index a.2 ≠ Step.index b.2 :=
    (List.pairwise_map.1 hindices).imp fun hne he => hne (Step.index.inj he)
  have hitems : ∀ a ∈ l.zipIdx, ∃ m,
      f a.1 a.2 = some (m.under (Step.index a.2).crumb) ∧ Tells words [m] (S a.1) := by
    rintro ⟨a, i⟩ ha
    obtain ⟨m, hm, htells⟩ := h a (List.fst_mem_of_mem_zipIdx ha)
    exact ⟨m, hm i, htells⟩
  obtain ⟨ms, hms, htells⟩ := exists_tells_traverse? hsteps hitems
  refine ⟨ms, hms, htells.congr fun x => ?_⟩
  constructor
  · rintro ⟨⟨a, i⟩, ha, hx⟩
    exact ⟨i, a, List.mem_zipIdx_iff_getElem?.1 ha, hx⟩
  · rintro ⟨i, a, ha, hx⟩
    exact ⟨(a, i), List.mem_zipIdx_iff_getElem?.2 ha, hx⟩

end MatchResult

end DataContract
