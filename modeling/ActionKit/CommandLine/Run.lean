import ActionKit.CommandLine.Arguments
import ActionKit.Report
import ActionKit.Show.Message
import ActionKit.Workshop.Fresh

/-!
# Carrying out commands

A command works on a new workshop and leaves what it prints and an exit code.

* `splitArguments`: the arguments of a call, some by position and some by name.
* `Failure`: why a command failed, with its exit code.
* `list`, `augment`, `check`: the commands.
* `run`: a command from its request to its outcome.
-/

namespace ActionKit.CommandLine

/-- Why a command failed. -/
inductive Failure where
  | usage (message : String)
  | build (error : BuildError)
  | call (error : CallError)
deriving DecidableEq, Repr

namespace Failure

/-- The exit code of a failure. -/
def exitCode : Failure → Nat
  | .usage _ => 1
  | .build _ => 2
  | .call _ => 3

/-- The wording of a failure. -/
def message (view : View) : Failure → String
  | .usage message => view.paint .red "Error" ++ ": " ++ message
  | .build error => view.buildError error
  | .call error => view.callError error

end Failure

/-- The one value of a list, if there is exactly one. -/
def single? : List Value → Option Value
  | [value] => some value
  | _ => none

/-- Arguments by position, and arguments by name. -/
structure Arguments where
  positional : List Value := []
  named : List (Symbol × Value) := []
deriving DecidableEq, Repr

/-- Split the arguments of a call. A refinement names the value that follows it, whatever that
is; without one, there is no answer. -/
def splitArguments : List Value → Option Arguments
  | [] => some {}
  | [.refinement _] => none
  | .refinement name :: value :: rest =>
    (splitArguments rest).map fun arguments =>
      { arguments with named := (name, value) :: arguments.named }
  | value :: rest =>
    (splitArguments rest).map fun arguments =>
      { arguments with positional := value :: arguments.positional }

/-- What a command leaves: the text it printed, the failure that stopped it, if any, and the
workshop. -/
structure Progress where
  printed : String := ""
  failure : Option Failure := none
  workshop : Workshop

/-- An action in full: its interface, its description and its parameters. -/
def describe (view : View) (action : Action) : String :=
  let description :=
    match action.description with
    | some text => "    " ++ quotation text ++ "\n"
    | none => ""
  view.action action ++ "\n" ++ description ++ view.table action.table

/-- List the natives. -/
def list (w : Workshop) (colored : Bool) : Progress :=
  { printed := String.join (w.natives.map (describe (w.view colored))), workshop := w }

/-- Read arguments and call an action with them. -/
def callWith (w : Workshop) (colored : Bool) (action : Action) (text : String) : Progress :=
  match w.readSpec text with
  | (.error error, w) => { failure := some (.build error), workshop := w }
  | (.ok values, w) =>
    match splitArguments values with
    | none => { failure := some (.usage "refinement without a value"), workshop := w }
    | some arguments =>
      match w.call action arguments.positional arguments.named with
      | .error error => { failure := some (.call error), workshop := w }
      | .ok value => { printed := (w.view colored).value value ++ "\n", workshop := w }

/-- The interface of an action, as a document or in full. -/
def interface (w : Workshop) (colored json : Bool) (action : Action) : String :=
  if json then
    let reporter : Reporter := { names := w.names, actions := w.actions }
    (reporter.action action).pretty ++ "\n"
  else describe (w.view colored) action

/-- Augment a native, print the interface of the result, and call it if arguments are given. -/
def augment (w : Workshop) (colored : Bool) (name spec : String) (arguments : Option String)
    (json : Bool) : Progress :=
  match w.native? (.ofString name) with
  | none => { failure := some (.usage ("unknown native '" ++ name ++ "'")), workshop := w }
  | some source =>
    match w.readSpec spec with
    | (.error error, w) => { failure := some (.build error), workshop := w }
    | (.ok spec, w) =>
      match w.augment source spec none with
      | (.error error, w) => { failure := some (.build error), workshop := w }
      | (.ok action, w) =>
        let shown := interface w colored json action
        match arguments with
        | none => { printed := shown, workshop := w }
        | some text =>
          let called := callWith w colored action text
          { called with printed := shown ++ called.printed }

/-- Make a typechecker and run it on a value. -/
def check (w : Workshop) (colored : Bool) (datatype value : String) : Progress :=
  match w.readSpec datatype with
  | (.error error, w) => { failure := some (.build error), workshop := w }
  | (.ok descriptors, w) =>
    match single? descriptors with
    | none =>
      { failure := some (.usage "expected a single datatype or typeset"), workshop := w }
    | some descriptor =>
      match w.makeChecker descriptor with
      | (.error error, w) => { failure := some (.build error), workshop := w }
      | (.ok checker, w) =>
        match w.readSpec value with
        | (.error error, w) => { failure := some (.build error), workshop := w }
        | (.ok values, w) =>
          match single? values with
          | none => { failure := some (.usage "expected a single value"), workshop := w }
          | some value =>
            match w.call checker [value] [] with
            | .error error => { failure := some (.call error), workshop := w }
            | .ok result => { printed := (w.view colored).value result ++ "\n", workshop := w }

/-! ## Log lines and outcomes -/

/-- The part of the program that logs an event. Events of the scratch area are not logged. -/
def origin? : Event → Option String
  | .region _ => none
  | .specialized _ _ => some "reframe::runtime::generator::specialize"
  | .augmented _ _ _ => some "reframe::runtime::generator::augment"
  | .created _ => some "reframe::runtime"

/-- The log line of an event. -/
def logLine? (view : View) (event : Event) : Option String :=
  (origin? event).map fun origin => "DEBUG [" ++ origin ++ "] " ++ view.event event ++ "\n"

/-- What a run of the program leaves. -/
structure Outcome where
  exitCode : Nat
  output : String
  errors : String
deriving DecidableEq, Repr

/-- Carry out a command on a new workshop. -/
def perform (colored : Bool) : Command → Progress
  | .list => list .fresh colored
  | .augment native spec arguments json => augment .fresh colored native spec arguments json
  | .check datatype value => check .fresh colored datatype value

/-- Carry out a command. A verbose run logs what went on in the workshop; all of that goes on
before anything else is printed. -/
def run (colored verbose : Bool) (command : Command) : Outcome :=
  let progress := perform colored command
  let view := progress.workshop.view colored
  let log := if verbose then String.join (progress.workshop.journal.filterMap (logLine? view)) else ""
  match progress.failure with
  | none => { exitCode := 0, output := log ++ progress.printed, errors := "" }
  | some failure =>
    { exitCode := failure.exitCode
      output := log ++ progress.printed
      errors := failure.message view ++ "\n" }

/-- The name and version of the program. Subcommands have names of their own and no version. -/
def versionText : Option String → String
  | none => "Reframe 0.1.0"
  | some subcommand => "reframe-" ++ subcommand ++ " "

end ActionKit.CommandLine
