import DataContract.Config
import DataContract.Toml.Reader

/-!
# Settings files

A settings file is a TOML document whose only key is `generation`. Under it stand the generation
settings: by name, others being ignored, or in their order as an array. What is left out has its
standard value.
-/

namespace DataContract

namespace GenerationConfig

/-- The name of a choice in TOML: a string, or a table with nothing under that name alone. -/
def tomlChoice? : Toml → Option String
  | .string s => some s
  | .table [(name, .table [])] => some name
  | .table [(name, .array [])] => some name
  | _ => none

/-- The number in TOML. -/
def tomlWord? : Toml → Option Nat
  | .integer n => if 0 ≤ n then some n.toNat else none
  | _ => none

/-- The truth value in TOML. -/
def tomlBool? : Toml → Option Bool
  | .boolean b => some b
  | _ => none

/-- The values of the fields, each absent or present. A moment counts as a table in which no name is
known. -/
def tomlFields? : Toml → Option (List (Option Toml))
  | .table members => some (fieldNames.map (Fields.get? members))
  | .array items => some (items.map some)
  | .moment _ => some []
  | _ => none

/-- Reads the settings from a TOML document. -/
def ofTomlText? (text : String) : Option GenerationConfig := do
  match ← Toml.read? text with
  | [] => some standard
  | [("generation", fields)] =>
    ofFields? tomlWord? tomlChoice? tomlBool? (← tomlFields? fields)
  | _ => none

end GenerationConfig

end DataContract
