import Moore.Command.Basic
import Moore.Text.Case

/-
# Sessions

A session answers one line of input after the other and keeps the machine that was loaded
last.  A line starts with a word that says what to do; without such a word it is an
expression to describe.
-/

namespace Moore

/-! ### Lines -/

/-- A form that a session converts expressions to. -/
inductive Form where
  | relational
  | simplified
  | disjunctive
  | conjunctive
  deriving DecidableEq, Repr

/-- The word that asks for a form. -/
def Form.word : Form → String
  | relational => "lower"
  | simplified => "simplify"
  | disjunctive => "dnf"
  | conjunctive => "cnf"

/-- What a line asks for. -/
inductive Request where
  | help
  | quit
  | convert (form : Form) (text : String)
  /-- Puts values in for inputs of an expression. -/
  | substitute (argument : List Char)
  | conditions (argument : List Char)
  | load (path : String)
  | check
  | transitions
  /-- Lists the transitions that the inputs enable. -/
  | fire (argument : List Char)
  | describe (text : String)
  deriving DecidableEq, Repr

/-- Reads a line that starts and ends with something else than white space. -/
def Request.ofLine (line : List Char) : Request :=
  let (word, argument) :=
    match Text.splitAtFirst? Text.isBlank line with
    | some (word, rest) => (word, Text.trimChars rest)
    | none => (line, [])
  match String.ofList (word.map Text.lowerToAscii) with
  | "help" | "?" => .help
  | "quit" | "exit" | "q" => .quit
  | "lower" => .convert .relational (String.ofList argument)
  | "simplify" => .convert .simplified (String.ofList argument)
  | "dnf" => .convert .disjunctive (String.ofList argument)
  | "cnf" => .convert .conjunctive (String.ofList argument)
  | "eval" => .substitute argument
  | "conditions" => .conditions argument
  | "load" => .load (String.ofList argument)
  | "check" => .check
  | "transitions" => .transitions
  | "fire" => .fire argument
  | _ => .describe (String.ofList line)

/-! ### Answers -/

/-- The machine that was loaded last, if any. -/
structure Session where
  loaded : Option Definition := none

namespace Session

def helpText : String :=
  "\n".intercalate [
    "",
    "Available commands:",
    "  help                          Show this help",
    "",
    "  <expr>                        Describe an expression",
    "  lower <expr>                  Lower an expression to VHDL",
    "  simplify <expr>               Simplify an expression",
    "  dnf <expr> / cnf <expr>       Normal forms",
    "  eval <bindings> <expr>        Substitute, e.g. eval x=1,y=0 x & ~y",
    "  conditions <c>; <c>; ...      Check conditions for overlap and coverage",
    "",
    "  load <file>                   Load a machine definition",
    "  check                         Diagnose the loaded machine",
    "  transitions                   Lower the loaded machine's transitions",
    "  fire <bindings> [state]       Enabled transitions of the loaded machine",
    "",
    "  quit, exit                    Exit the REPL",
    "",
    grammarHelp]

/-- An expression in a form. -/
def convert (form : Form) (text : String) : Except CommandError String := do
  if text = "" then throw (.stated s!"usage: {form.word} <expr>")
  let e ← (Expr.parse text).mapError .expr
  match form with
  | .relational => e.relational.mapError .expr
  | .simplified => return e.simplify.text
  | .disjunctive => return e.dnf.text
  | .conjunctive => return e.cnf.text

/-- An expression after bindings, with the bound inputs put in. -/
def substitute (argument : List Char) : Except CommandError String := do
  match Text.splitAtFirst? Text.isBlank argument with
  | none => return "Usage: eval <bindings> <expr>"
  | some (bindings, text) =>
    let b ← (Bindings.parse (String.ofList bindings)).mapError .expr
    let e ← (Expr.parse (String.ofList text)).mapError .expr
    return (e.substitute b).text

/-- Examines the conditions between semicolons. -/
def conditions (colors : Bool) (argument : List Char) : Except CommandError String := do
  let pieces := (Text.pieces (· = ';') argument).map Text.trimChars
  let texts := (pieces.filter (!·.isEmpty)).map String.ofList
  let cs ← (texts.mapM Condition.parse).mapError .model
  if cs.isEmpty then return "Usage: conditions <c>; <c>; ..."
  else return ConditionSet.describe colors cs

/-- The loaded machine. -/
def machine (s : Session) : Except CommandError Definition :=
  match s.loaded with
  | some d => .ok d
  | none => .error (.stated "no machine loaded; use 'load <file>'")

/-- The transitions that inputs enable, of all or of those that leave one state. -/
def fire (s : Session) (colors : Bool) (argument : List Char) : Except CommandError String := do
  match (Text.pieces Text.isBlank argument).map String.ofList with
  | [] => return "Usage: fire <bindings> [state]"
  | bindings :: rest =>
    let b ← (Bindings.parse bindings).mapError .expr
    ((← s.machine).enabledText colors b rest.head?).mapError .stated

/-- What a session says when it has loaded a machine. -/
def loadedText (colors : Bool) (d : Definition) : String :=
  let states := d.world.machine.states.size
  let transitions := d.world.machine.transitions.size
  Text.paint colors .green "Loaded" ++ " " ++ Text.paint colors .cyan d.name ++
    s!" ({states} states, {transitions} transitions)"

variable (files : Files) (settings : Settings) (colors : Bool)

/-- Loads a machine; without one, the session stays as it is. -/
def load (s : Session) (path : String) : Except CommandError (String × Session) := do
  if path = "" then return ("Usage: load <file>", s)
  let d ← Command.load files path
  return (loadedText colors d, { loaded := some d })

/-- The answer to a request, with the session afterwards; no text ends the session. -/
def execute (s : Session) : Request → Except CommandError (Option String × Session)
  | .help => return (some helpText, s)
  | .quit => return (none, s)
  | .convert form text => return (some (← convert form text), s)
  | .substitute argument => return (some (← substitute argument), s)
  | .conditions argument => return (some (← conditions colors argument), s)
  | .load path => return (← s.load files colors path).map some id
  | .check => do
    let report := (← s.machine).check settings.rules
    return (some (report.outcome colors settings.output.format).text, s)
  | .transitions => do
    let text ← ((← s.machine).loweredText colors).mapError .model
    return (some text, s)
  | .fire argument => return (some (← s.fire colors argument), s)
  | .describe text => do
    let e ← (Expr.parse text).mapError .expr
    return (some (← e.describe.mapError .expr), s)

/-- The files that a session reads for a line. -/
def paths (line : String) : List String :=
  match Request.ofLine (Text.trimChars line.toList) with
  | .load path => [path]
  | _ => []

/-! ### Transcripts -/

def greeting : String :=
  Text.paint colors .boldCyan "fsmhdl REPL" ++ "\nType 'help' for available commands.\n\n"

/-- What the session prints at the end of the input. -/
def farewell : String := "^D\n"

/-- What a session prints on a line, and the session afterwards if it goes on. -/
def respond (s : Session) (line : String) : String × Option Session :=
  let line := Text.trimChars line.toList
  if line.isEmpty then ("", some s)
  else
    match s.execute files settings colors (.ofLine line) with
    | .ok (some text, s) => (text ++ "\n\n", some s)
    | .ok (none, _) => ("", none)
    | .error e => (e.line colors ++ "\n\n", some s)

/-- What a session prints on all lines of the input. -/
def transcript (s : Session) : List String → String
  | [] => farewell
  | line :: rest =>
    match s.respond files settings colors line with
    | (text, some s) => text ++ transcript s rest
    | (text, none) => text

end Session

end Moore
