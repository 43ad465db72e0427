import DataContract.Text.Split

/-!
# Arguments

What the arguments of a command line ask for. Options that all commands share may stand before the
name of the command and behind it; if they stand at both places, the one behind counts. Within one
of the two places no option may be given twice. An option has its value behind an equals sign or as
the next argument, which must not look like an option itself. Two dashes end the options. Behind
`help` stands nothing but the name of a command.
-/

namespace DataContract

namespace CommandLine

/-- The form of the output. -/
inductive OutputFormat where
  | text
  | json
deriving DecidableEq, Repr, Inhabited

/-- What is asked of contracts. -/
inductive Command where
  /-- Match a value, perhaps with tokens in place of values. -/
  | check (contract value : String) (mock : Bool)
  /-- Generate values. -/
  | generate (contract : String) (count : Nat)
  /-- Enumerate test inputs for one example row or for those of the contract. -/
  | tests (contract : String) (row : Option String) (negative : Bool) (limit : Nat)
  /-- Check that a newer contract accepts what an older one does. -/
  | compare (older newer : String)
deriving DecidableEq, Repr, Inhabited

/-- A command and the options that all commands share. -/
structure Request where
  format : OutputFormat
  quiet : Bool
  /-- The path of the settings file. -/
  settings : Option String
  command : Command
deriving DecidableEq, Repr, Inhabited

/-- The paths of the files that a command reads. -/
def Command.paths : Command → List String
  | check contract value _ => [contract, value]
  | generate contract _ => [contract]
  | tests contract row _ _ => contract :: row.toList
  | compare older newer => [older, newer]

/-- The paths of the files that a request reads. -/
def Request.paths (request : Request) : List String :=
  request.settings.toList ++ request.command.paths

/-- What is wrong with arguments. -/
inductive UsageError where
  | unknownOption (argument : String)
  | repeatedOption (name : String)
  | missingValue (name : String)
  | unexpectedValue (name : String)
  | invalidValue (name value : String)
  | unexpectedOperand (argument : String)
  | missingOperands (command : String)
  | missingCommand
  | unknownCommand (name : String)
deriving DecidableEq, Repr

/-- The text of a usage error. -/
def UsageError.message : UsageError → String
  | unknownOption argument => s!"unexpected argument '{argument}' found"
  | repeatedOption name => s!"the argument '--{name}' cannot be used multiple times"
  | missingValue name => s!"a value is required for '--{name}' but none was supplied"
  | unexpectedValue name => s!"unexpected value for '--{name}' found; no more were expected"
  | invalidValue name value => s!"invalid value '{value}' for '{name}'"
  | unexpectedOperand argument => s!"unexpected argument '{argument}' found"
  | missingOperands command => s!"the following required arguments were not provided: {command}"
  | missingCommand => "a subcommand is required but one was not provided"
  | unknownCommand name => s!"unrecognized subcommand '{name}'"

/-- Why arguments are not a request. -/
inductive Stop where
  /-- They ask for the version. -/
  | version
  /-- They ask for help. -/
  | help
  | misuse (e : UsageError)
deriving DecidableEq, Repr

/-- What an option takes. -/
inductive OptionKind where
  /-- No value. -/
  | flag
  /-- The name of an output format. -/
  | format
  /-- A path, which is not empty. -/
  | path
  /-- A number of at most 64 bits. -/
  | count
  /-- No value; it asks for the version and ends the reading. -/
  | version
  /-- No value; it asks for help and ends the reading. -/
  | help
deriving DecidableEq, Repr

/-- The number that a text is. -/
def count? (text : String) : Option Nat :=
  Text.boundedNat? UInt64.size text.toList

/-- The output format of a name. -/
def format? (name : String) : Option OutputFormat :=
  if name = "text" then some .text else if name = "json" then some .json else none

namespace OptionKind

/-- The option needs a value. -/
def takesValue : OptionKind → Bool
  | format => true
  | path => true
  | count => true
  | _ => false

/-- The text is a value of the kind. -/
def accepts : OptionKind → String → Bool
  | format, value => (format? value).isSome
  | path, value => !value.isEmpty
  | count, value => (count? value).isSome
  | _, _ => false

end OptionKind

/-- The options that all commands share. -/
def sharedOptions : List (String × OptionKind) :=
  [("output", .format), ("quiet", .flag), ("verbose", .flag), ("config", .path), ("help", .help)]

/-- The arguments of a command: its options and how many paths it needs. -/
structure CommandForm where
  name : String
  options : List (String × OptionKind)
  operands : Nat

/-- The forms of the commands. -/
def commandForms : List CommandForm :=
  [⟨"match", [("mock", .flag)], 2⟩, ⟨"generate", [("count", .count)], 1⟩,
    ⟨"tests", [("row", .path), ("negative", .flag), ("limit", .count)], 1⟩, ⟨"compat", [], 2⟩]

/-- The options that were given at one place, with the values of those that take one. -/
abbrev Given := List (String × String)

/-- An argument as it is read. -/
inductive Argument where
  /-- Two dashes. -/
  | endOfOptions
  /-- An option with a name and perhaps a value. -/
  | long (name : String) (value : Option String)
  /-- Letters behind one dash. -/
  | short (first : Char)
  | operand

/-- Classifies an argument. -/
def Argument.ofText (text : String) : Argument :=
  match text.toList with
  | ['-', '-'] => .endOfOptions
  | '-' :: '-' :: cs =>
    match Text.splitOnce (· = '=') cs with
    | some (name, value) => .long (String.ofList name) (some (String.ofList value))
    | none => .long (String.ofList cs) none
  | '-' :: c :: _ => .short c
  | _ => .operand

/-- The first argument, if it can be the value of the option before it, and the others. -/
def nextValue? : List String → Option (String × List String)
  | [] => none
  | arg :: args =>
    match Argument.ofText arg with
    | .operand => some (arg, args)
    | _ => none

/-- Adds an option to those given before it. -/
def give (given : Given) (kind : OptionKind) (name value : String) : Except Stop Given :=
  if given.any (·.1 = name) then .error (.misuse (.repeatedOption name))
  else if kind.takesValue && !kind.accepts value then .error (.misuse (.invalidValue name value))
  else .ok (given ++ [(name, value)])

/-- Reads one option, of which the value may be the first of the arguments behind it. -/
def readOption (options : List (String × OptionKind)) (given : Given) (name : String)
    (value : Option String) (args : List String) : Except Stop (Given × List String) :=
  match options.lookup name with
  | none => .error (.misuse (.unknownOption ("--" ++ name)))
  | some kind =>
    match value with
    | some value =>
      if kind.takesValue then (give given kind name value).map (·, args)
      else .error (.misuse (.unexpectedValue name))
    | none =>
      match kind with
      | .version => .error .version
      | .help => .error .help
      | .flag => (give given kind name "").map (·, args)
      | kind =>
        match nextValue? args with
        | none => .error (.misuse (.missingValue name))
        | some (value, args) => (give given kind name value).map (·, args)

/-- An option of one letter. -/
def readShort {α : Type} (options : List (String × OptionKind)) (c : Char) : Except Stop α :=
  if c = 'h' then .error .help
  else if c = 'V' && (options.lookup "version").isSome then .error .version
  else .error (.misuse (.unknownOption (String.ofList ['-', c])))

/-- Reads arguments up to the first operand, which is given with the arguments behind it. The
first number bounds how many there are. -/
def readOptions (options : List (String × OptionKind)) :
    Nat → Given → List String → Except Stop (Given × List String)
  | 0, given, _ => .ok (given, [])
  | _ + 1, given, [] => .ok (given, [])
  | fuel + 1, given, arg :: args =>
    match Argument.ofText arg with
    | .endOfOptions =>
      match args with
      | [] => .ok (given, [])
      | arg :: _ => .error (.misuse (.unexpectedOperand arg))
    | .long name value =>
      match readOption options given name value args with
      | .error e => .error e
      | .ok (given, args) => readOptions options fuel given args
    | .short c => readShort options c
    | .operand => .ok (given, arg :: args)

/-- Adds a path to those before it. -/
def addOperand (form : CommandForm) (operands : List String) (arg : String) :
    Except Stop (List String) :=
  if operands.length = form.operands then .error (.misuse (.unexpectedOperand arg))
  else if arg.isEmpty then .error (.misuse (.invalidValue "path" arg))
  else .ok (operands ++ [arg])

/-- Reads the options and the paths of a command. The number bounds how many arguments there are. -/
def readCommand (form : CommandForm) :
    Nat → Given → List String → List String → Except Stop (Given × List String)
  | 0, given, operands, _ => .ok (given, operands)
  | _ + 1, given, operands, [] => .ok (given, operands)
  | fuel + 1, given, operands, arg :: args =>
    match Argument.ofText arg with
    | .endOfOptions => (args.foldlM (addOperand form) operands).map (given, ·)
    | .long name value =>
      match readOption (form.options ++ sharedOptions) given name value args with
      | .error e => .error e
      | .ok (given, args) => readCommand form fuel given operands args
    | .short c => readShort (form.options ++ sharedOptions) c
    | .operand =>
      match addOperand form operands arg with
      | .error e => .error e
      | .ok operands => readCommand form fuel given operands args

/-- The number given for an option, or the standard one. -/
def countOf (given : Given) (name : String) (standard : Nat) : Nat :=
  ((given.lookup name).bind count?).getD standard

/-- The command with these options and paths. -/
def commandOf (name : String) (given : Given) (operands : List String) : Option Command :=
  match operands with
  | [first, second] =>
    if name = "match" then some (.check first second (given.lookup "mock").isSome)
    else if name = "compat" then some (.compare first second)
    else none
  | [contract] =>
    if name = "generate" then some (.generate contract (countOf given "count" 1))
    else if name = "tests" then
      some (.tests contract (given.lookup "row") (given.lookup "negative").isSome
        (countOf given "limit" 20))
    else none
  | _ => none

/-- What asking for help on the named commands comes to. A command can be named; none stands below
another. -/
def helpOn : List String → Stop
  | [] => .help
  | name :: below =>
    if name = "help" || commandForms.any (·.name = name) then
      match below with
      | [] => .help
      | other :: _ => .misuse (.unknownCommand other)
    else .misuse (.unknownCommand name)

/-- The request that arguments make. -/
def Request.ofArguments (args : List String) : Except Stop Request := do
  let (before, rest) ← readOptions (("version", .version) :: sharedOptions) (args.length + 1) []
    args
  match rest with
  | [] => .error (.misuse .missingCommand)
  | name :: args =>
    match commandForms.find? (·.name = name) with
    | none =>
      if name = "help" then .error (helpOn args) else .error (.misuse (.unknownCommand name))
    | some form =>
      let (behind, operands) ← readCommand form (args.length + 1) [] [] args
      let shared (name : String) : Option String := (behind.lookup name).or (before.lookup name)
      match commandOf name behind operands with
      | none => .error (.misuse (.missingOperands name))
      | some command =>
        return ⟨((shared "output").bind format?).getD .text, (shared "quiet").isSome,
          shared "config", command⟩

end CommandLine

end DataContract
