/-!
# Command-line arguments

Arguments are taken one by one against a grammar of flags, options that take a value, operands and
subcommands. An argument that starts with a dash is a flag or an option, unless it is a single
dash, comes after `--`, or is written after the equals sign of an option.

* `Grammar`, `Matches`: what may be given, and what was.
* `scan`: taking arguments up to their end, a subcommand, or something that settles the matter.
* `Command`, `Request`: what the program is asked for.
* `Request.parse`: the request that some arguments make.
-/

namespace ActionKit.CommandLine

/-- What may be given to a command. Every command also knows the flags for help and version. -/
structure Grammar where
  /-- Long flags, with the letter that abbreviates each. -/
  flags : List (String × Option Char) := []
  /-- Long options that take a value. -/
  options : List String := []
  /-- How many operands there are. All of them are required. -/
  operands : Nat := 0
  subcommands : List String := []

/-- What was given to a command. -/
structure Matches where
  /-- The flags given, each as often as it was given. -/
  flags : List String := []
  /-- The options given, each as often as it was given, and with its value unless that is
  missing. -/
  options : List (String × Option String) := []
  operands : List String := []

namespace Matches

/-- One more flag. -/
def flag (m : Matches) (name : String) : Matches := { m with flags := m.flags ++ [name] }

/-- One more option. -/
def option (m : Matches) (name : String) (value : Option String) : Matches :=
  { m with options := m.options ++ [(name, value)] }

/-- The value of the option given last. -/
def optionValue (m : Matches) (name value : String) : Matches :=
  { m with options := m.options.dropLast ++ [(name, some value)] }

/-- One more operand. -/
def operand (m : Matches) (value : String) : Matches := { m with operands := m.operands ++ [value] }

/-- Whether a flag was given. -/
def has (m : Matches) (name : String) : Bool := m.flags.contains name

/-- The value of an option. -/
def value? (m : Matches) (name : String) : Option String := (m.options.lookup name).join

/-- Whether all operands are there, no flag or option was repeated, and every option has its
value. -/
def complete (m : Matches) (grammar : Grammar) : Bool :=
  m.operands.length = grammar.operands && decide m.flags.Nodup &&
    decide (m.options.map (·.1)).Nodup && m.options.all (·.2.isSome)

end Matches

/-- What was given so far, and how the next argument is to be taken. -/
structure State where
  found : Matches := {}
  /-- An option that still waits for its value. -/
  pending : Option String := none
  /-- Whether all further arguments are operands. -/
  operandsOnly : Bool := false

/-- What an argument leads to. -/
inductive Taken where
  | more (state : State)
  | subcommand (name : String)
  | help
  | version
  | invalid

/-- A long argument without its dashes: its name, and its value if it has an equals sign. Further
equals signs before the value are dropped. -/
def splitLong (arg : String) : String × Option String :=
  let chars := arg.toList.dropWhile (· = '-')
  let name := String.ofList (chars.takeWhile (· ≠ '='))
  match chars.dropWhile (· ≠ '=') with
  | [] => (name, none)
  | value => (name, some (String.ofList (value.dropWhile (· = '='))))

namespace Grammar

/-- Take an operand, if one is still expected. -/
def operand (grammar : Grammar) (state : State) (arg : String) : Taken :=
  if state.found.operands.length < grammar.operands then
    .more { state with found := state.found.operand arg }
  else .invalid

/-- Take a flag or an option by its long name. -/
def long (grammar : Grammar) (state : State) (arg : String) : Taken :=
  let (name, value) := splitLong arg
  if grammar.options.contains name then
    .more {
      found := state.found.option name value
      pending := if value.isNone then some name else none }
  else if name = "help" then .help
  else if name = "version" then .version
  else if grammar.flags.any (·.1 = name) then .more { found := state.found.flag name }
  else .invalid

/-- Take flags by the letters that abbreviate them. -/
def short (grammar : Grammar) (found : Matches) : List Char → Taken
  | [] => .more { found }
  | letter :: rest =>
    if letter = 'h' then .help
    else if letter = 'V' then .version
    else
      match grammar.flags.find? (·.2 = some letter) with
      | some (name, _) => grammar.short (found.flag name) rest
      | none => .invalid

/-- Take one argument. -/
def take (grammar : Grammar) (state : State) (arg : String) : Taken :=
  if state.operandsOnly then grammar.operand state arg
  else if arg = "--" then .more { state with operandsOnly := true }
  else if arg.startsWith "--" then grammar.long state arg
  else if arg.startsWith "-" && arg ≠ "-" then grammar.short state.found (arg.toList.drop 1)
  else
    match state.pending with
    | some name => .more { found := state.found.optionValue name arg }
    | none =>
      if grammar.subcommands.contains arg then .subcommand arg else grammar.operand state arg

end Grammar

/-- How taking arguments ends. -/
inductive Scan where
  /-- All arguments were taken. -/
  | finished (found : Matches)
  /-- A subcommand was met before the remaining arguments. -/
  | subcommand (found : Matches) (name : String) (rest : List String)
  | help
  | version
  | invalid

/-- Take arguments one by one. -/
def scan (grammar : Grammar) (state : State) : List String → Scan
  | [] => .finished state.found
  | arg :: rest =>
    match grammar.take state arg with
    | .more state => scan grammar state rest
    | .subcommand name => .subcommand state.found name rest
    | .help => .help
    | .version => .version
    | .invalid => .invalid

/-! ## Requests -/

/-- What the program is asked to do. -/
inductive Command where
  /-- List the natives. -/
  | list
  /-- Augment a native with a spec, and call the result if arguments are given. -/
  | augment (native spec : String) (call : Option String) (json : Bool)
  /-- Run a typechecker on a value. -/
  | check (datatype value : String)
deriving DecidableEq, Repr

/-- What some arguments ask for. -/
inductive Request where
  | run (verbose : Bool) (command : Command)
  | help
  /-- The version of the program, or of one of its subcommands. -/
  | version (subcommand : Option String)
  /-- The arguments make no sense. -/
  | misuse
deriving DecidableEq, Repr

/-- What may be given before a subcommand. -/
def mainGrammar : Grammar where
  flags := [("verbose", some 'v')]
  subcommands := ["list", "augment", "check", "help"]

/-- What may be given to `list`. -/
def listGrammar : Grammar := {}

/-- What may be given to `augment`. -/
def augmentGrammar : Grammar where
  flags := [("json", none)]
  options := ["call"]
  operands := 2

/-- What may be given to `check`. -/
def checkGrammar : Grammar where
  operands := 2

namespace Request

/-- The request made by the arguments of a subcommand. -/
def ofSubcommand (verbose : Bool) (name : String) (grammar : Grammar) (args : List String)
    (command : Matches → Option Command) : Request :=
  match scan grammar {} args with
  | .finished found =>
    if found.complete grammar then
      match command found with
      | some command => .run verbose command
      | none => .misuse
    else .misuse
  | .help => .help
  | .version => .version (some name)
  | .subcommand _ _ _ | .invalid => .misuse

/-- The command that the arguments of `augment` describe. -/
def augmentCommand (found : Matches) : Option Command :=
  match found.operands with
  | [native, spec] => some (.augment native spec (found.value? "call") (found.has "json"))
  | _ => none

/-- The command that the arguments of `check` describe. -/
def checkCommand (found : Matches) : Option Command :=
  match found.operands with
  | [datatype, value] => some (.check datatype value)
  | _ => none

/-- The request made by what follows `help`: nothing, or one subcommand. -/
def ofHelp : List String → Request
  | [] => .help
  | [name] => if mainGrammar.subcommands.contains name then .help else .misuse
  | _ => .misuse

/-- The request made by a subcommand and what follows it. -/
def dispatch (verbose : Bool) (name : String) (args : List String) : Request :=
  if name = "list" then ofSubcommand verbose name listGrammar args fun _ => some .list
  else if name = "augment" then ofSubcommand verbose name augmentGrammar args augmentCommand
  else if name = "check" then ofSubcommand verbose name checkGrammar args checkCommand
  else ofHelp args

/-- The request that arguments make. A repeated flag before the subcommand only matters if the
subcommand is to be run. -/
def parse (args : List String) : Request :=
  match scan mainGrammar {} args with
  | .subcommand found name rest =>
    match dispatch (found.has "verbose") name rest with
    | .run verbose command => if found.complete mainGrammar then .run verbose command else .misuse
    | request => request
  | .help => .help
  | .version => .version none
  | .finished _ | .invalid => .misuse

end Request

end ActionKit.CommandLine
