import DataContract.Config
import DataContract.Pattern.Basic

/-!
# Resolvers

A resolver is the context of every operation on patterns: the registered patterns, the facts that
generation prefers, the settings, the wording of messages, and the names that are being expanded at
the moment. Nothing changes a resolver; the parts of an operation get changed copies.

Names are registered in the form `(Name)`. `Resolver.resolve` follows references to the first
pattern that is none. Every step of it looks up a name that it has not looked up before, so it ends
after as many steps as there are names.
-/

namespace DataContract

/-- Pairs of named types whose comparison has begun, the containing side first. -/
abbrev TypeStack := List (String × String)

/-- Whose side the messages about keys take. -/
inductive KeyMessages where
  | contract
  | stub
deriving DecidableEq, Repr, Inhabited

namespace KeyMessages

/-- The message about a key that is not declared. -/
def unexpected : KeyMessages → String → String
  | .contract, key => s!"Key named {key} was unexpected"
  | .stub, key => s!"Key named {key} in the stub was not in the contract"

/-- The message about a declared key that is not there. -/
def missing : KeyMessages → String → String
  | .contract, key => s!"Expected key named {key} was missing"
  | .stub, key => s!"Key named {key} in the contract was not found in the stub"

end KeyMessages

/-- The context of an operation on patterns. -/
structure Resolver where
  registry : List (String × Pattern)
  facts : List (String × Value)
  /-- Examples that do not fit are skipped. -/
  negative : Bool
  config : GenerationConfig
  messages : KeyMessages
  /-- The names that are being expanded, the last one first. -/
  expanding : List String

namespace Resolver

/-- Nothing registered, standard settings. -/
def empty : Resolver := ⟨[], [], false, .standard, .contract, []⟩

instance : Inhabited Resolver := ⟨empty⟩

/-! ## Construction -/

/-- Registers a pattern under a name in any form. -/
def register (r : Resolver) (name : String) (p : Pattern) : Resolver :=
  { r with registry := Fields.set r.registry (Name.delimited name) p }

/-- Replaces the registry; of names that are the same in delimited form the last one stays. -/
def withPatterns (r : Resolver) (patterns : List (String × Pattern)) : Resolver :=
  { r with registry := Fields.ofPairs (patterns.map fun (name, p) => (Name.delimited name, p)) }

/-- Replaces the facts. -/
def withFacts (r : Resolver) (facts : List (String × Value)) : Resolver :=
  { r with facts }

/-- Adds a fact. -/
def withFact (r : Resolver) (name : String) (v : Value) : Resolver :=
  { r with facts := Fields.set r.facts name v }

/-- Replaces the settings, which have to be valid. -/
def withConfig (r : Resolver) (config : GenerationConfig) : Except ContractError Resolver :=
  config.validate.map fun _ => { r with config }

/-- Replaces the cap on combinations. -/
def withMaxCombinations (r : Resolver) (max : Nat) : Except ContractError Resolver :=
  r.withConfig { r.config with maxCombinations := max }

/-- Replaces the policy for negative variants. -/
def withNegativePolicy (r : Resolver) (policy : NegativePolicy) : Resolver :=
  { r with config := { r.config with negativePolicy := policy } }

/-- Replaces the setting for optional keys. -/
def withOptionalKeys (r : Resolver) (optionalKeys : OptionalKeys) : Resolver :=
  { r with config := { r.config with optionalKeys } }

/-- Replaces the wording of messages. -/
def withMessages (r : Resolver) (messages : KeyMessages) : Resolver :=
  { r with messages }

/-- Skips examples that do not fit. -/
def inNegative (r : Resolver) : Resolver :=
  { r with negative := true }

/-- Accepts tokens in place of values. -/
def mock (r : Resolver) : Resolver :=
  { r with config := { r.config with mockMode := true } }

/-! ## Lookup -/

/-- The fact under a name. -/
def fact? (r : Resolver) (name : String) : Option Value :=
  Fields.get? r.facts name

/-- The registered names in order. -/
def patternNames (r : Resolver) : List String :=
  Fields.names r.registry

/-- The pattern registered under a name in any form. -/
def getPattern (r : Resolver) (name : String) : Except ContractError Pattern :=
  match Fields.get? r.registry (Name.delimited name) with
  | some p => .ok p
  | none => .error (.unknownPattern (Name.delimited name))

/-- Follows references from a name in delimited form, for at most the given number of steps; `seen`
holds the names behind. -/
def follow (r : Resolver) : Nat → List String → String → Except ContractError Pattern
  | 0, _, name => .error (.recursion name)
  | steps + 1, seen, name =>
    if seen.contains name then .error (.recursion name)
    else
      match r.getPattern name with
      | .error e => .error e
      | .ok (.reference next) => r.follow steps (name :: seen) next
      | .ok p => .ok p

/-- The first pattern that is no reference on the way from a name in any form. -/
def resolve (r : Resolver) (name : String) : Except ContractError Pattern :=
  r.follow (r.registry.length + 1) [] (Name.delimited name)

/-! ## Expansion -/

/-- The name is being expanded. -/
def isExpanding (r : Resolver) (name : String) : Bool :=
  r.expanding.contains (Name.delimited name)

/-- Begins to expand a name; an error if it is already being expanded. -/
def expand (r : Resolver) (name : String) : Except ContractError Resolver :=
  if r.isExpanding name then .error (.recursion (Name.delimited name))
  else .ok { r with expanding := Name.delimited name :: r.expanding }

/-- A bound on the number of places in the registered patterns and in the facts. -/
def weight (r : Resolver) : Nat :=
  1 + r.registry.length + Pattern.weightOfFields r.registry + Value.weightMembers r.facts

end Resolver

end DataContract
