import Moore.Command.Arguments
import Moore.Session
import Moore.Settings.Load

/-
# The program

A run of the program on given arguments, files and input: it reads its settings and then runs
a command or holds a session.
-/

namespace Moore

/-- What a run leaves behind. -/
structure Run where
  exit : Nat := 0
  output : String := ""
  errors : String := ""
  deriving DecidableEq, Repr

namespace Run

def usage : String :=
  "Usage: fsmhdl [OPTIONS] [COMMAND]"

def helpPage : String :=
  "\n".intercalate [
    "Analyse Moore state machines and lower their conditions to VHDL",
    "",
    usage,
    "",
    "Commands:",
    "  repl                                Start interactive REPL",
    "  check FILE                          Diagnose a machine definition",
    "  lower FILE                          Print every transition condition as VHDL",
    "  export FILE [-n NAME]               Export the model consumed by the VHDL template",
    "  eval FILE --set SET [--from STATE]  Show which transitions fire for the given inputs",
    "  expr TEXT                           Analyse a single expression",
    "  conditions TEXT...                  Check conditions for exclusivity and exhaustiveness",
    "  help                                Print this message",
    "",
    "Options:",
    "  -c, --config CONFIG                 YAML configuration file [env: FSMHDL_CONFIG]",
    "  -f, --format FORMAT                 Output format: text, json or yaml",
    "  -h, --help                          Print help",
    "  -V, --version                       Print version",
    ""]

/-- A run without a command. -/
def interrupted : Interruption → Run
  | .help => { output := helpPage }
  | .version => { output := "fsmhdl 0.1.0\n" }
  | .misuse =>
    { exit := 2
      errors := "error: invalid arguments\n\n" ++ usage ++
        "\n\nFor more information, try '--help'.\n" }

/-- A run without settings. -/
def unsettled (e : SettingsError) : Run where
  exit := 1
  errors := "Error: " ++ e.shown ++ "\n"

/-- What is printed about an error of a command. -/
def errorText (colors : Bool) (e : CommandError) : String :=
  e.line colors ++ "\n" ++
    if e.isSyntax then Text.paint colors .dimmed grammarHelp ++ "\n" else ""

/-- A run of a command. -/
def ofCommand (files : Files) (settings : Settings) (colors : Bool) (c : Command) : Run :=
  match c.run files settings colors with
  | .ok outcome => { exit := if outcome.success then 0 else 1, output := outcome.text ++ "\n" }
  | .error e => { exit := 1, errors := errorText colors e }

/-- A run of a session. -/
def ofSession (files : Files) (settings : Settings) (colors : Bool) (input : String) : Run where
  output := Session.greeting colors ++
    Session.transcript files settings colors {} (input.splitOn "\n")

end Run

/-- The settings of an invocation. -/
def Invocation.settings (i : Invocation) (files : Files) (env : Environment) :
    Except SettingsError Settings := do
  let settings ← Settings.load files env i.config
  let output := { settings.output with format := i.format.getD settings.output.format }
  return { settings with output }

/-- A run of the program; `terminal` tells whether it prints to a terminal. -/
def Run.ofArguments (files : Files) (env : Environment) (terminal : Bool) (args : List String)
    (input : String) : Run :=
  match Invocation.parse env args with
  | .error i => .interrupted i
  | .ok i =>
    match i.settings files env with
    | .error e => .unsettled e
    | .ok settings =>
      let colors := env.colors settings.output.color terminal
      match i.command with
      | some c => .ofCommand files settings colors c
      | none => .ofSession files settings colors input

end Moore
