import DataContract.MatchResult
import Mathlib.Data.List.Basic

/-!
# The lines of a failure

Flattening a failure takes the path to the root with it on the way down. Its lines are also made
from the bottom up: those of an aggregate are the lines of its parts one after the other, and a
breadcrumb is put in front of every path (`Failure.lines_homomorphism`). Both give the same lines
because joining paths is associative (`Failure.joinPath_assoc`), although a point stands between two
breadcrumbs only if the second one is no index. So the path of a line is the join of the breadcrumbs
from the root to its node, in whatever order they are joined (`Failure.Joins`).
-/

namespace DataContract

/-- The line with one more breadcrumb in front of its path. -/
def FailureLine.under (crumb : String) (line : FailureLine) : FailureLine :=
  { line with path := Failure.joinPath crumb line.path }

/-- The lines of a failure; a success has none. -/
def MatchResult.lines : MatchResult → List FailureLine
  | .success => []
  | .failure f => f.lines

namespace Failure

/-! ## Paths -/

/-- Joining nothing to a path leaves it. -/
theorem joinPath_empty (path : String) : joinPath path "" = path := rfl

/-- A crumb joined to the empty path stands without a separator. -/
theorem empty_joinPath (crumb : String) : joinPath "" crumb = crumb := by
  by_cases h : crumb = ""
  · rw [h, joinPath_empty]
  · simp [joinPath, h]

/-- What a breadcrumb adds to a path that is not empty. -/
def segment (crumb : String) : String :=
  if crumb.toList.head? = some '[' then crumb else "." ++ crumb

/-- Below a path that is not empty, a crumb adds its segment. -/
theorem joinPath_of_ne {path crumb : String} (hpath : path ≠ "") (hcrumb : crumb ≠ "") :
    joinPath path crumb = path ++ segment crumb := by
  simp only [joinPath, segment, String.isEmpty_iff, hpath, hcrumb, if_false]
  split
  · rfl
  · rw [String.append_assoc]

/-- A text that starts with something is not empty. -/
theorem append_ne_empty {a : String} (ha : a ≠ "") (b : String) : a ++ b ≠ "" := by
  simp [ha]

/-- What is added behind a breadcrumb does not decide how the breadcrumb itself is joined. -/
theorem segment_append {a : String} (ha : a ≠ "") (b : String) :
    segment (a ++ b) = segment a ++ b := by
  have hhead : (a ++ b).toList.head? = a.toList.head? := by
    rw [String.toList_append]
    cases hlist : a.toList with
    | nil => exact absurd (String.toList_eq_nil_iff.1 hlist) ha
    | cons c cs => rfl
  rw [segment, segment, hhead]
  split
  · rfl
  · rw [String.append_assoc]

/-- Joining paths is associative, whichever of them are empty. -/
theorem joinPath_assoc (a b c : String) :
    joinPath (joinPath a b) c = joinPath a (joinPath b c) := by
  by_cases ha : a = ""
  · rw [ha, empty_joinPath, empty_joinPath]
  by_cases hb : b = ""
  · rw [hb, joinPath_empty, empty_joinPath]
  by_cases hc : c = ""
  · rw [hc, joinPath_empty, joinPath_empty]
  -- the sign between two breadcrumbs depends on how the second one begins, and that stays as it is
  calc
    joinPath (joinPath a b) c = joinPath (a ++ segment b) c := by rw [joinPath_of_ne ha hb]
    _ = a ++ segment b ++ segment c := joinPath_of_ne (append_ne_empty ha _) hc
    _ = a ++ segment (b ++ segment c) := by rw [segment_append hb, String.append_assoc]
    _ = joinPath a (b ++ segment c) := (joinPath_of_ne ha (append_ne_empty hb _)).symm
    _ = joinPath a (joinPath b c) := by rw [joinPath_of_ne hb hc]

/-- The path of breadcrumbs that lead from the root to a node. -/
def pathOf (crumbs : List String) : String :=
  crumbs.foldr joinPath ""

/-- The path of a trail starts with its first crumb. -/
theorem pathOf_cons (crumb : String) (crumbs : List String) :
    pathOf (crumb :: crumbs) = joinPath crumb (pathOf crumbs) := rfl

/-- The path of two trails in a row is the join of their paths. -/
theorem pathOf_append (front back : List String) :
    pathOf (front ++ back) = joinPath (pathOf front) (pathOf back) := by
  induction front with
  | nil => exact (empty_joinPath _).symm
  | cons crumb front ih => rw [List.cons_append, pathOf_cons, ih, pathOf_cons, joinPath_assoc]

/-- A way to join breadcrumbs: one of them alone, or what is joined in front with what is joined
behind. -/
inductive Joins where
  | crumb (name : String)
  | join (front back : Joins)

namespace Joins

/-- The breadcrumbs in order. -/
def crumbs : Joins → List String
  | crumb name => [name]
  | join front back => front.crumbs ++ back.crumbs

/-- What is joined. -/
def path : Joins → String
  | crumb name => name
  | join front back => joinPath front.path back.path

/-- The order in which breadcrumbs are joined makes no difference. -/
theorem path_eq_pathOf (joins : Joins) : joins.path = pathOf joins.crumbs := by
  induction joins with
  | crumb name => exact (joinPath_empty name).symm
  | join front back ihf ihb => rw [path, crumbs, pathOf_append, ihf, ihb]

end Joins

/-! ## Nodes -/

/-- A node of a tree with the breadcrumbs from the root to it, its own among them. -/
structure Place where
  crumbs : List String
  node : Failure

namespace Place

/-- The place in a tree with one more node above the root. -/
def under (crumb : String) (place : Place) : Place :=
  { place with crumbs := crumb :: place.crumbs }

/-- The lines of the node alone: one if it has no causes or a message of its own, else none. -/
def lines (place : Place) : List FailureLine :=
  if place.node.causes.isEmpty || !place.node.message.isEmpty
  then [⟨pathOf place.crumbs, place.node.message⟩] else []

/-- A place moved below a crumb has its lines moved below it. -/
theorem lines_under (crumb : String) (place : Place) :
    (place.under crumb).lines = place.lines.map (·.under crumb) := by
  unfold lines under
  split <;> rfl

end Place

mutual

/-- The nodes of a tree in order, a node before what is under it. -/
def places : Failure → List Place
  | node message crumb causes =>
    ⟨[crumb], node message crumb causes⟩ :: (placesOfAll causes).map (·.under crumb)

/-- The nodes of several trees. -/
def placesOfAll : List Failure → List Place
  | [] => []
  | f :: fs => places f ++ placesOfAll fs

end

/-! ## Flattening -/

/-- The empty crumb moves a line nowhere. -/
theorem under_empty (line : FailureLine) : line.under "" = line := by
  rw [FailureLine.under, empty_joinPath]

/-- Moving a line twice moves it below the joined path. -/
theorem under_under (path crumb : String) (line : FailureLine) :
    (line.under crumb).under path = line.under (joinPath path crumb) := by
  rw [FailureLine.under, FailureLine.under, FailureLine.under, joinPath_assoc]

/-- Flattening a node gives its own lines and then those of its causes. -/
theorem linesAt_node (path message crumb : String) (causes : List Failure) :
    linesAt path (node message crumb causes) =
      (Place.lines ⟨[crumb], node message crumb causes⟩).map (·.under path) ++
        linesAtAll (joinPath path crumb) causes := by
  cases causes with
  | nil => rfl
  | cons cause causes =>
    rw [linesAt]
    cases h : message.isEmpty <;> simp [Place.lines, Failure.causes, Failure.message, h]
    rfl

mutual

/-- Flattening on the way down from a path puts the path in front of the lines of the nodes. -/
theorem linesAt_eq (path : String) :
    ∀ f : Failure, linesAt path f = (f.places.flatMap Place.lines).map (·.under path)
  | node message crumb causes => by
    have hcauses : linesAtAll (joinPath path crumb) causes =
        (((placesOfAll causes).map (·.under crumb)).flatMap Place.lines).map (·.under path) := by
      rw [linesAtAll_eq (joinPath path crumb) causes, List.flatMap_map, List.map_flatMap,
        List.map_flatMap]
      simp only [Place.lines_under, List.map_map, Function.comp_def, under_under]
    rw [linesAt_node, hcauses, places, List.flatMap_cons, List.map_append]

/-- The lines of several failures at a path are those of their places, moved below the path. -/
theorem linesAtAll_eq (path : String) :
    ∀ fs : List Failure,
      linesAtAll path fs = ((placesOfAll fs).flatMap Place.lines).map (·.under path)
  | [] => rfl
  | f :: fs => by
    rw [linesAtAll, linesAt_eq path f, linesAtAll_eq path fs, placesOfAll, List.flatMap_append,
      List.map_append]

end

/-- The lines of a tree are those of its nodes. -/
theorem lines_eq_flatMap (f : Failure) : f.lines = f.places.flatMap Place.lines := by
  rw [lines, linesAt_eq, funext under_empty, List.map_id']

/-- The lines of a failure at a path are its own lines, moved below the path. -/
theorem linesAt_eq_map (path : String) (f : Failure) :
    linesAt path f = f.lines.map (·.under path) := by
  rw [linesAt_eq, lines_eq_flatMap]

/-- At the root, the lines of several failures are those of each in turn. -/
theorem linesAtAll_eq_flatMap (fs : List Failure) : linesAtAll "" fs = fs.flatMap lines := by
  induction fs with
  | nil => rfl
  | cons f fs ih => rw [linesAtAll, ih, List.flatMap_cons, lines]

end Failure

namespace MatchResult

open Failure (linesAt)

/-- A breadcrumb around a result is put in front of the path of every line. -/
theorem lines_under (crumb : String) (result : MatchResult) :
    (result.under crumb).lines = result.lines.map (·.under crumb) := by
  cases result with
  | success => rfl
  | failure f =>
    calc
      linesAt "" (.node "" crumb [f]) = linesAt (Failure.joinPath "" crumb) f ++ [] := rfl
      _ = linesAt crumb f := by rw [Failure.empty_joinPath, List.append_nil]
      _ = f.lines.map (·.under crumb) := Failure.linesAt_eq_map crumb f

/-- The lines of an aggregate are those of its failures, one failure after the other. -/
theorem lines_all_eq (results : List MatchResult) :
    (all results).lines = (results.filterMap failure?).flatMap Failure.lines := by
  unfold all
  cases results.filterMap failure? with
  | nil => rfl
  | cons f fs => exact Failure.linesAtAll_eq_flatMap (f :: fs)

/-- Combining results concatenates their lines. -/
theorem lines_all (results : List MatchResult) :
    (all results).lines = results.flatMap lines := by
  rw [lines_all_eq]
  induction results with
  | nil => rfl
  | cons result results ih =>
    cases result with
    | success => exact ih
    | failure f => exact congrArg (f.lines ++ ·) ih

end MatchResult

namespace Failure

/-- Flattening goes with the structure of a failure. The lines of an aggregate are those of its
failures in order, and a breadcrumb is put in front of every path. In a tree of any depth the lines
are those of the nodes in order, each at the join of all breadcrumbs from the root to its node, in
whatever order they are joined, and a node without causes has exactly one line. -/
theorem lines_homomorphism :
    (∀ results : List MatchResult,
      (MatchResult.all results).lines = (results.filterMap MatchResult.failure?).flatMap lines) ∧
    (∀ (crumb : String) (f : Failure), ((MatchResult.failure f).under crumb).lines =
      f.lines.map fun line => ⟨joinPath crumb line.path, line.message⟩) ∧
    ∀ f : Failure, f.lines = f.places.flatMap Place.lines ∧
      ∀ place ∈ f.places,
        (∀ line ∈ place.lines, line.path = pathOf place.crumbs) ∧
        (∀ joins : Joins, joins.crumbs = place.crumbs → joins.path = pathOf place.crumbs) ∧
        (place.node.causes = [] → ∃ line, place.lines = [line]) := by
  refine ⟨MatchResult.lines_all_eq, fun crumb f => MatchResult.lines_under crumb (.failure f),
    fun f => ⟨lines_eq_flatMap f, fun place _ => ⟨fun line hline => ?_, ?_, fun hcauses => ?_⟩⟩⟩
  · unfold Place.lines at hline
    split at hline
    · rw [List.mem_singleton.1 hline]
    · cases hline
  · rintro joins hjoins
    rw [← hjoins, Joins.path_eq_pathOf]
  · exact ⟨_, if_pos (by rw [hcauses]; rfl)⟩

/-- A number in place of the salutation of the first customer, told with its way there. -/
def wrongSalutation : Failure :=
  .node "" "customers" [.node "" "[0]" [.node "" "(when Customer object)"
    [.node "" "salutation" [.node "Expected string, actual was 10" "" []]]]]

/-- The message is the only line, at the path to the salutation, and the breadcrumbs may also be
joined from both ends to the middle. -/
theorem wrongSalutation_lines :
    wrongSalutation.lines = [⟨"customers[0].(when Customer object).salutation",
      "Expected string, actual was 10"⟩] ∧
    (Joins.join (.join (.crumb "customers") (.crumb "[0]"))
      (.join (.crumb "(when Customer object)") (.join (.crumb "salutation") (.crumb "")))).path =
      "customers[0].(when Customer object).salutation" := by
  obtain ⟨hlines, hplaces⟩ := lines_homomorphism.2.2 wrongSalutation
  have hplace : ⟨["customers", "[0]", "(when Customer object)", "salutation", ""],
      .node "Expected string, actual was 10" "" []⟩ ∈ wrongSalutation.places := by
    simp [wrongSalutation, places, placesOfAll, Place.under]
  obtain ⟨-, hjoins, -⟩ := hplaces _ hplace
  exact ⟨hlines.trans (by decide), (hjoins _ rfl).trans (by decide)⟩

end Failure

end DataContract
