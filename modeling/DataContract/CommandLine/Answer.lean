import DataContract.CommandLine.Arguments
import DataContract.MatchResult
import DataContract.Json.Printer

/-!
# Answers

What the commands find out and how it is printed: as text, or as one JSON document in indented
form. A mismatch and an incompatibility make the exit code 1, also when nothing is printed.
-/

namespace DataContract

namespace CommandLine

/-- A generated test input: the row and the name of the pattern that it was generated from. -/
structure TestInput where
  row : String
  pattern : String
  value : Json

/-- What a command finds out. -/
inductive Answer where
  /-- The value matches a pattern of the given name, or does not. -/
  | checked (typeName : String) (result : MatchResult)
  | generated (values : List Json)
  | inputs (negative : Bool) (found : List TestInput)
  /-- The results of the comparisons under their names. -/
  | compared (checks : List (String × MatchResult))

/-- Text with a line break behind it. -/
def line (text : String) : String :=
  text ++ "\n"

/-- A JSON value in indented form on lines of its own. -/
def document (json : Json) : String :=
  line json.indented

namespace Answer

/-- The comparisons that failed. -/
def failures (checks : List (String × MatchResult)) : List (String × Failure) :=
  checks.filterMap fun (name, result) => result.failure?.map (name, ·)

/-- The answer is good news. -/
def isGood : Answer → Bool
  | checked _ result => result.isSuccess
  | compared checks => checks.all (·.2.isSuccess)
  | _ => true

/-- The lines of a failure as JSON. -/
def failureJson (failure : Failure) : Json :=
  .array (failure.lines.map fun l =>
    .ofPairs [("path", .string l.path), ("message", .string l.message)])

/-- The answer as JSON. -/
def toJson : Answer → Json
  | checked _ .success => .ofPairs [("matched", .bool true)]
  | checked _ (.failure f) => .ofPairs [("matched", .bool false), ("failures", failureJson f)]
  | generated values => .array values
  | inputs _ found => .array (found.map fun i =>
      .ofPairs [("row", .string i.row), ("pattern", .string i.pattern), ("value", i.value)])
  | compared checks =>
    let failures := failures checks
    .ofPairs [("compatible", .bool failures.isEmpty), ("checked", .ofNat checks.length),
      ("incompatible", .array (failures.map fun (name, f) =>
        .ofPairs [("type", .string name), ("failures", failureJson f)]))]

/-- The answer as text. -/
def toText : Answer → String
  | checked typeName .success => line s!"matched {typeName}"
  | checked _ (.failure f) => line s!"{f.lines.length} mismatch(es):\n\n{f.report}"
  | generated values => String.join (values.map document)
  | inputs negative found =>
    let kind := if negative then "negative" else "positive"
    line s!"{found.length} {kind} test input(s)" ++
      String.join (found.zipIdx.map fun (input, i) =>
        line "" ++ line s!"[{i + 1}] {input.row}" ++ document input.value)
  | compared checks =>
    match failures checks with
    | [] => line s!"compatible ({checks.length} pattern(s) checked)"
    | failures =>
      line s!"{failures.length} incompatible pattern(s):" ++
        String.join (failures.map fun (name, f) => line s!"\n{name}\n\n{f.report}")

/-- The answer in a format. -/
def print (format : OutputFormat) (answer : Answer) : String :=
  match format with
  | .text => answer.toText
  | .json => document answer.toJson

end Answer

end CommandLine

end DataContract
