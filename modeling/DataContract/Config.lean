import DataContract.Error
import DataContract.Json.Reader
import DataContract.Text.Blank
import DataContract.Text.Split

/-!
# Generation settings

The settings that a whole generation shares: the cap on combinations, the policy for negative
variants, whether optional keys are generated, and whether tokens are accepted in place of values.
They are read from a record, in which every field may be missing, and overlaid with the texts of two
variables. A cap of zero is an error wherever it comes from.
-/

namespace DataContract

/-- Which negative variants of an object are kept. -/
inductive NegativePolicy where
  /-- All of them, on demand. -/
  | all
  /-- All of them, at once. -/
  | strict
  /-- For values that travel as text: nothing in place of a string, and never null. -/
  | stringly
  /-- For typed values: never null, and never a value of the same type. -/
  | nonStringly
deriving DecidableEq, Repr, Inhabited

namespace NegativePolicy

/-- The policy that a text of a setting names, in letters of any case. -/
def ofText (text : String) : Except ContractError NegativePolicy :=
  let word := Text.lowerAscii (Text.trim text)
  if word = "all" then .ok .all
  else if word = "strict" then .ok .strict
  else if word = "stringly" then .ok .stringly
  else if word = "non-stringly" || word = "nonstringly" then .ok .nonStringly
  else .error (.config
    s!"unknown negative policy \"{word}\" (expected all, strict, stringly or non-stringly)")

/-- The policy of exactly this name. -/
def ofName? (name : String) : Option NegativePolicy :=
  if name = "all" then some .all
  else if name = "strict" then some .strict
  else if name = "stringly" then some .stringly
  else if name = "non-stringly" then some .nonStringly
  else none

end NegativePolicy

/-- Whether optional keys are generated. -/
inductive OptionalKeys where
  | random
  | all
  | none
deriving DecidableEq, Repr, Inhabited

namespace OptionalKeys

/-- The setting of exactly this name. -/
def ofName? (name : String) : Option OptionalKeys :=
  if name = "random" then some .random
  else if name = "all" then some .all
  else if name = "none" then some .none
  else Option.none

end OptionalKeys

/-- The settings of a generation. -/
structure GenerationConfig where
  maxCombinations : Nat
  negativePolicy : NegativePolicy
  optionalKeys : OptionalKeys
  mockMode : Bool
deriving DecidableEq, Repr

namespace GenerationConfig

/-- The settings where nothing else is said. -/
def standard : GenerationConfig := ⟨64, .all, .random, false⟩

instance : Inhabited GenerationConfig := ⟨standard⟩

/-- The cap is not zero. -/
def validate (config : GenerationConfig) : Except ContractError Unit :=
  if config.maxCombinations = 0 then .error (.invalidMaxCombinations 0) else .ok ()

/-- The variable with the cap on combinations. -/
def maxCombinationsVariable : String := "PACTUM_MAX_TEST_REQUEST_COMBINATIONS"

/-- The variable with the policy for negative variants. -/
def negativePolicyVariable : String := "PACTUM_NEGATIVE_POLICY"

/-- The settings with the texts of the variables, where they are set. -/
def withVariables (config : GenerationConfig) (max policy : Option String) :
    Except ContractError GenerationConfig := do
  let config ← match max with
    | none => pure config
    | some raw =>
      match Text.boundedNat? UInt64.size (Text.trimChars raw.toList) with
      | some n => pure { config with maxCombinations := n }
      | none => .error (.config
          s!"{maxCombinationsVariable} must be a positive integer, got \"{raw}\"")
  let config ← match policy with
    | none => pure config
    | some raw => do pure { config with negativePolicy := ← NegativePolicy.ofText raw }
  config.validate
  return config

/-- The names of the fields of a settings record, in order. -/
def fieldNames : List String :=
  ["max_combinations", "negative_policy", "optional_keys", "mock_mode"]

/-- The name of a choice: a string, or an object with null under that name alone. -/
def choiceName? : Json → Option String
  | .string s => some s
  | .object [(name, .null)] => some name
  | _ => none

/-- The settings of these field values, the standard ones where a field is missing; how a number,
the name of a choice and a truth value are written is given. -/
def ofFields? {α : Type} (word : α → Option Nat) (choice : α → Option String)
    (bool : α → Option Bool) (values : List (Option α)) : Option GenerationConfig := do
  let field {β : Type} (i : Nat) (default : β) (read : α → Option β) : Option β :=
    match values.getD i none with
    | none => some default
    | some v => read v
  return ⟨← field 0 standard.maxCombinations word,
    ← field 1 standard.negativePolicy fun v => (choice v).bind NegativePolicy.ofName?,
    ← field 2 standard.optionalKeys fun v => (choice v).bind OptionalKeys.ofName?,
    ← field 3 standard.mockMode bool⟩

/-- Reads the settings from a JSON record. An object among them names a choice, by its one
member. -/
def ofJsonText? (text : String) : Option GenerationConfig := do
  let record ← Json.RecordText.read? .distinct fieldNames text
  ofFields? Json.word? choiceName? Json.bool? (← record.fieldValues? fieldNames)

end GenerationConfig

end DataContract
