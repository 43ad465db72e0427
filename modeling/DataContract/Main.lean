import DataContract.CommandLine.Run

/-!
# The program

Reads the files and variables that the arguments call for, runs the command on them, and writes
what it reports.
-/

open DataContract CommandLine

/-- The system's wording of an error number; the negative of a number stands for it as well. -/
def numberText (code : UInt32) (details : String) : String :=
  let number := if code.toNat < UInt32.size / 2 then code.toNat else UInt32.size - code.toNat
  let text :=
    if number = 2 then "No such file or directory"
    else if number = 13 then "Permission denied"
    else if number = 20 then "Not a directory"
    else if number = 21 then "Is a directory"
    else if number = 36 then "File name too long"
    else if number = 40 then "Too many levels of symbolic links"
    else details
  text ++ " (os error " ++ toString number ++ ")"

/-- The reason for which a file cannot be read. -/
def readFailure : IO.Error → String
  | .noFileOrDirectory _ code details
  | .permissionDenied _ code details
  | .inappropriateType _ code details
  | .invalidArgument _ code details
  | .resourceExhausted _ code details
  | .otherError code details => numberText code details
  | .userError _ => "stream did not contain valid UTF-8"
  | e => toString e

/-- The text of a file, or why it cannot be read. -/
def readText (path : String) : IO (Except String String) := do
  try return .ok (← IO.FS.readFile path)
  catch e => return .error (readFailure e)

/-- The paths of the files that arguments call for. -/
def pathsOf (args : List String) : List String :=
  match Request.ofArguments args with
  | .ok request => request.paths
  | .error _ => []

/-- Runs the program. -/
def main (args : List String) : IO UInt32 := do
  let files ← (pathsOf args).mapM fun path => do return (path, ← readText path)
  let names := [GenerationConfig.maxCombinationsVariable, GenerationConfig.negativePolicyVariable]
  let settings ← names.mapM fun name => do return (name, ← IO.getEnv name)
  let seed ← IO.rand 0 (UInt64.size / 4)
  let report := run args
    ⟨fun path => (files.lookup path).getD (.error "not read"),
      fun name => (settings.lookup name).join, Choices.ofSeed seed.toUInt64⟩
  IO.print report.output
  IO.eprint report.errors
  return report.exitCode.toUInt32
