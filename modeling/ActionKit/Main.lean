import ActionKit.CommandLine.Run

/-!
# The program

The command line as a program: it reads its arguments, carries out the request and prints the
outcome. Colours are used if standard output is a terminal.
-/

namespace ActionKit.CommandLine

/-- How the program is used. -/
def helpText : String :=
  String.intercalate "\n" [
    "Derives actions from natives and runs them.",
    "",
    "USAGE:",
    "    reframe [-v | --verbose] <SUBCOMMAND>",
    "",
    "SUBCOMMANDS:",
    "    list                             List the natives and their interfaces.",
    "    augment [--json] [--call <ARGS>] <NATIVE> <SPEC>",
    "                                     Augment a native with the parameters of a spec.",
    "    check <TYPE> <VALUE>             Build a typechecker and run it on a value.",
    "    help [SUBCOMMAND]                Print this message."]

/-- What a request leaves. -/
def answer (colored : Bool) : Request → Outcome
  | .run verbose command => run colored verbose command
  | .help => { exitCode := 0, output := helpText ++ "\n", errors := "" }
  | .version subcommand => { exitCode := 0, output := versionText subcommand ++ "\n", errors := "" }
  | .misuse => { exitCode := 1, output := "", errors := helpText ++ "\n" }

end ActionKit.CommandLine

/-- Run the program. -/
def main (args : List String) : IO UInt32 := do
  let stdout ← IO.getStdout
  let stderr ← IO.getStderr
  let outcome := ActionKit.CommandLine.answer (← stdout.isTty) (.parse args)
  stdout.putStr outcome.output
  stderr.putStr outcome.errors
  return outcome.exitCode.toUInt32
