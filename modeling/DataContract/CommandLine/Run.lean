import DataContract.CommandLine.Answer
import DataContract.Document
import DataContract.Generation
import DataContract.Negatives
import DataContract.Settings
import DataContract.Variants

/-!
# Running a command

A run of the program as a function of its arguments and of what it can see: files, variables and the
choices of generation. Settings are read first, then contracts, then values, and the first thing
that is wrong is all that is reported.
-/

namespace DataContract

namespace CommandLine

/-- What a run can see. -/
structure Surroundings where
  /-- The text of the file at a path, or why it cannot be read. -/
  file : String → Except String String
  /-- The value of an environment variable. -/
  environment : String → Option String
  choices : Choices

/-- What a run leaves behind. -/
structure Report where
  exitCode : Nat
  output : String
  errors : String
deriving DecidableEq, Repr

/-- Why a run ends without an answer. -/
inductive RunError where
  /-- A file cannot be read. -/
  | unreadable (path reason : String)
  /-- A file of data is no JSON text. -/
  | malformedValue (path text : String)
  /-- A file of settings is no TOML document of the expected form. -/
  | malformedSettings (path : String)
  /-- The settings of a file are not admitted. -/
  | invalidSettings (path : String) (e : ContractError)
  /-- The contract or value of a file, or an example row, is at fault. -/
  | within (place : String) (e : ContractError)
  /-- A value could not be generated for a row. -/
  | ungenerated (row : String) (e : ContractError)
  /-- A value could not be generated. -/
  | generation (e : ContractError)
  /-- The variables are at fault. -/
  | plain (e : ContractError)
  /-- The budget of a computation was too small. -/
  | unfinished

/-- The text of an error. -/
def RunError.message : RunError → String
  | unreadable path reason => s!"error reading '{path}': {reason}"
  | malformedValue path text => s!"error parsing JSON in '{path}': {Json.malformed text}"
  | malformedSettings path =>
    s!"error in '{path}': TOML parse error: no settings of the expected form"
  | invalidSettings path e => s!"error in '{path}': {e.message}"
  | within place e => s!"{place}: {e.message}"
  | ungenerated row e => s!"{row}: generation error: {e.message}"
  | generation e => s!"generation error: {e.message}"
  | plain e => e.message
  | unfinished => "no answer within the budget"

/-- A result of the library, with its error put into the context of the run. -/
def inContext {α : Type} (context : ContractError → RunError) :
    Except ContractError α → Except RunError α
  | .ok a => .ok a
  | .error e => .error (context e)

/-- An outcome of the library, with its error put into the context of the run. -/
def outcomeInContext {α : Type} (context : ContractError → RunError) :
    Outcome α → Except RunError α
  | .ok a => .ok a
  | .error e => .error (context e)
  | .unfinished => .error .unfinished

/-- An answer of the library that has no errors. -/
def finished {α : Type} : Option α → Except RunError α
  | some a => .ok a
  | none => .error .unfinished

namespace Surroundings

/-- The text of a file. -/
def text (s : Surroundings) (path : String) : Except RunError String :=
  match s.file path with
  | .ok text => .ok text
  | .error reason => .error (.unreadable path reason)

/-- The settings of a file, or the standard ones, overlaid with the variables. -/
def config (s : Surroundings) (path : Option String) : Except RunError GenerationConfig := do
  let base ← match path with
    | none => pure GenerationConfig.standard
    | some path => do
      match GenerationConfig.ofTomlText? (← s.text path) with
      | none => .error (.malformedSettings path)
      | some config =>
        inContext (.invalidSettings path) config.validate
        pure config
  inContext .plain (base.withVariables (s.environment GenerationConfig.maxCombinationsVariable)
    (s.environment GenerationConfig.negativePolicyVariable))

/-- The value of a file of JSON text. -/
def value (s : Surroundings) (path : String) : Except RunError Value := do
  let text ← s.text path
  match Json.read? text with
  | none => .error (.malformedValue path text)
  | some json => inContext (.within path) (Value.ofJson json)

/-- The contract of a file, under the settings, and its example rows. -/
def contract (s : Surroundings) (config : GenerationConfig) (path : String) :
    Except RunError (Contract × List Row) := do
  let document ← inContext (.within path) (ContractDocument.ofText (← s.text path))
  let contract ← inContext (.within path) document.load
  let resolver ← inContext .plain (contract.resolver.withConfig config)
  let rows ← inContext (.within path) document.rows
  return ({ contract with resolver }, rows)

end Surroundings

/-- The variants of a contract's root for a row: those to be accepted, or those to be rejected. -/
def variantsFor (contract : Contract) (negative : Bool) (row : Row) :
    Except RunError (LazyList Pattern) :=
  if negative then .ok (contract.root.negatives row contract.resolver)
  else outcomeInContext (.within row.name) (contract.root.variants row contract.resolver)

/-- At most `limit` test inputs for one row. -/
def rowInputs (contract : Contract) (negative : Bool) (limit : Nat) (c : Choices) (row : Row) :
    Except RunError (List TestInput) := do
  let variants ← finished ((← variantsFor contract negative row).take limit).toList?
  variants.zipIdx.mapM fun (p, i) => do
    let v ← outcomeInContext (.ungenerated row.name) (p.generate contract.resolver (c.part i))
    return ⟨row.name, p.typeName, v.toJson⟩

/-- The rows of a request: the given one, those of the contract, or one without data. -/
def requestedRows (s : Surroundings) (path : Option String) (rows : List Row) :
    Except RunError (List Row) :=
  match path with
  | some path => do return [(Row.ofJsonExample (← s.value path)).named path]
  | none => .ok (if rows.isEmpty then [Row.empty.named "no example"] else rows)

/-- What a command finds out under the settings. -/
def answer (s : Surroundings) (config : GenerationConfig) : Command → Except RunError Answer
  | .check contractPath valuePath mock => do
    let (contract, _) ← s.contract config contractPath
    let v ← s.value valuePath
    let resolver := if mock then contract.resolver.mock else contract.resolver
    return .checked contract.root.typeName (← finished (contract.root.check v resolver))
  | .generate path count => do
    let (contract, _) ← s.contract config path
    let values ← (List.range count).mapM fun i =>
      outcomeInContext .generation
        (contract.root.generateValid contract.resolver (s.choices.part i))
    return .generated (values.map Value.toJson)
  | .tests path row negative limit => do
    let (contract, rows) ← s.contract config path
    let rows ← requestedRows s row rows
    let inputs ← rows.zipIdx.mapM fun (row, i) =>
      rowInputs contract negative limit (s.choices.part i) row
    return .inputs negative inputs.flatten
  | .compare olderPath newerPath => do
    let (older, _) ← s.contract config olderPath
    let (newer, _) ← s.contract config newerPath
    let checks ← (newer.compatibility older).mapM fun (name, result) => do
      return (name, ← finished result)
    return .compared checks

/-- What a run says about an error. -/
def errorText (format : OutputFormat) (e : RunError) : String :=
  match format with
  | .text => line e.message
  | .json => document (.ofPairs [("error", .string e.message)])

/-- A run of a request. -/
def Request.run (request : Request) (s : Surroundings) : Report :=
  let say (text : String) : String := if request.quiet then "" else text
  match (do answer s (← s.config request.settings) request.command : Except RunError Answer) with
  | .error e => ⟨1, "", say (errorText request.format e)⟩
  | .ok answer => ⟨if answer.isGood then 0 else 1, say (answer.print request.format), ""⟩

/-- The name and the version of the program. -/
def version : String := "pactum 0.1.0"

/-- How the program is called. -/
def usage : String :=
  "Contract pattern matching and test generation\n\n" ++
  "Usage: pactum [OPTIONS] <COMMAND>\n\n" ++
  "Commands:\n" ++
  "  match CONTRACT VALUE [--mock]\n" ++
  "  generate CONTRACT [--count N]\n" ++
  "  tests CONTRACT [--row ROW] [--negative] [--limit N]\n" ++
  "  compat OLDER NEWER\n\n" ++
  "Options: --output text|json, --quiet, --verbose, --config FILE, --help, --version"

/-- A run of the program. -/
def run (args : List String) (s : Surroundings) : Report :=
  match Request.ofArguments args with
  | .ok request => request.run s
  | .error .version => ⟨0, line version, ""⟩
  | .error .help => ⟨0, line usage, ""⟩
  | .error (.misuse e) => ⟨2, "", line ("error: " ++ e.message) ++ line "" ++ line usage⟩

end CommandLine

end DataContract
