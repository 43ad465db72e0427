/-!
# Match results

The outcome of matching a value and of comparing two patterns. A failure is a tree: structural
patterns collect the failures of all their parts under a breadcrumb, so that one report shows every
violation. `Failure.lines` flattens the tree: each message with the path of breadcrumbs from the
root to it.
-/

namespace DataContract

/-- A node of a failure tree; an empty breadcrumb adds no path segment. -/
inductive Failure where
  | node (message breadcrumb : String) (causes : List Failure)

/-- An entry of a report: the path to a violation and what it is. -/
structure FailureLine where
  path : String
  message : String
deriving DecidableEq, Repr

namespace Failure

instance : Inhabited Failure := ⟨.node "" "" []⟩

/-- The message of the root. -/
def message : Failure → String
  | node m _ _ => m

/-- The breadcrumb of the root. -/
def breadcrumb : Failure → String
  | node _ b _ => b

/-- The failures under the root. -/
def causes : Failure → List Failure
  | node _ _ cs => cs

/-- Extends a path by a breadcrumb; an index in brackets follows without a point. -/
def joinPath (path crumb : String) : String :=
  if crumb.isEmpty then path
  else if path.isEmpty then crumb
  else if crumb.toList.head? = some '[' then path ++ crumb
  else path ++ "." ++ crumb

mutual

/-- The lines of a tree whose root stands at a path. -/
def linesAt (path : String) : Failure → List FailureLine
  | node message crumb causes =>
    let here := joinPath path crumb
    match causes with
    | [] => [⟨here, message⟩]
    | _ :: _ =>
      (if message.isEmpty then [] else [⟨here, message⟩]) ++ linesAtAll here causes

/-- The lines of several trees at one path. -/
def linesAtAll (path : String) : List Failure → List FailureLine
  | [] => []
  | f :: fs => linesAt path f ++ linesAtAll path fs

end

/-- One line for every leaf and for every inner node with a message, in tree order. -/
def lines (f : Failure) : List FailureLine :=
  linesAt "" f

/-- A line of the report: the path on its own line, the message indented below. -/
def lineText (line : FailureLine) : String :=
  if line.path.isEmpty then line.message
  else ">> " ++ line.path ++ "\n\n   " ++ line.message

/-- The report: all lines, with an empty line between them. -/
def report (f : Failure) : String :=
  "\n\n".intercalate (f.lines.map lineText)

end Failure

/-- The outcome of a match or of a comparison. -/
inductive MatchResult where
  | success
  | failure (failure : Failure)

namespace MatchResult

instance : Inhabited MatchResult := ⟨.success⟩

/-- A failure that is a single message. -/
def fail (message : String) : MatchResult :=
  .failure (.node message "" [])

/-- The failure of a value that is not what was expected. -/
def mismatch (expected actual : String) : MatchResult :=
  fail s!"Expected {expected}, actual was {actual}"

/-- The result is a success. -/
def isSuccess : MatchResult → Bool
  | .success => true
  | .failure _ => false

/-- The failure, if the result is one. -/
def failure? : MatchResult → Option Failure
  | .success => none
  | .failure f => some f

/-- Puts a failure under a path segment. -/
def under (crumb : String) : MatchResult → MatchResult
  | .success => .success
  | .failure f => .failure (.node "" crumb [f])

/-- Success if all are; else one failure with every failure of the list as a cause. -/
def all (results : List MatchResult) : MatchResult :=
  match results.filterMap failure? with
  | [] => .success
  | causes => .failure (.node "" "" causes)

/-- The report of a failure; nothing for a success. -/
def report : MatchResult → String
  | .success => ""
  | .failure f => f.report

@[simp] theorem isSuccess_success : success.isSuccess = true := rfl

@[simp] theorem isSuccess_failure (f : Failure) : (failure f).isSuccess = false := rfl

@[simp] theorem isSuccess_under (crumb : String) (r : MatchResult) :
    (r.under crumb).isSuccess = r.isSuccess := by
  cases r <;> rfl

/-- An aggregate succeeds exactly when all its parts do. -/
@[simp] theorem isSuccess_all (results : List MatchResult) :
    (all results).isSuccess = results.all isSuccess := by
  have key : results.filterMap failure? = [] ↔ results.all isSuccess = true := by
    induction results with
    | nil => exact ⟨fun _ => rfl, fun _ => rfl⟩
    | cons r rs ih =>
      cases r with
      | success => exact ih
      | failure f => exact ⟨fun h => (nomatch h), fun h => (nomatch h)⟩
  unfold all
  split
  · next h => exact (key.1 h).symm
  · next h => exact (Bool.eq_false_iff.2 fun hall => h (key.2 hall)).symm

end MatchResult

end DataContract
