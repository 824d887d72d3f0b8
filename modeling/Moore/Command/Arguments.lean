import Moore.Command.Basic
import Moore.Settings.Environment

/-
# Command lines

The arguments of the program: options with values, then a command with options and operands
of its own.  An option is a word after two hyphens, with its value after an equals sign or as
the next argument, or a letter after one hyphen, with its value right behind it or as the
next argument.  Two hyphens alone make operands of all arguments behind them.
-/

namespace Moore

/-- Why no command is run. -/
inductive Interruption where
  /-- The user asks for help. -/
  | help
  /-- The user asks for the version. -/
  | version
  /-- The arguments make no sense. -/
  | misuse
  deriving DecidableEq, Repr

namespace Arguments

/-- An option; it takes a value. -/
structure Parameter where
  name : String
  letter : Option Char := none
  /-- Whether a text is a value of the option. -/
  accepts : String → Bool := fun _ => true

/-- The arguments that make sense at one place. -/
structure Grammar where
  parameters : List Parameter := []
  /-- The number of operands, if it is bounded. -/
  operands : Option Nat := none
  /-- Whether a text is an operand. -/
  acceptsOperand : String → Bool := fun _ => true
  /-- The commands that end the arguments of this place. -/
  commands : List String := []
  /-- Whether the user can ask for the version. -/
  hasVersion : Bool := false

/-- What the arguments up to some point say. -/
structure Reading where
  values : List (String × String) := []
  operands : List String := []
  /-- All further arguments are operands. -/
  onlyOperands : Bool := false
  /-- The option whose value is the next argument. -/
  pending : Option Parameter := none

/-- Gives an option its value; an option has one value. -/
def Reading.setValue (r : Reading) (p : Parameter) (value : String) :
    Except Interruption Reading :=
  if (r.values.lookup p.name).isSome || !p.accepts value then .error .misuse
  else .ok { r with values := (p.name, value) :: r.values, pending := none }

namespace Grammar

variable (g : Grammar)

/-- Reads an operand. -/
def readOperand (r : Reading) (arg : String) : Except Interruption Reading :=
  if g.operands.any (· ≤ r.operands.length) || !g.acceptsOperand arg then .error .misuse
  else .ok { r with operands := r.operands ++ [arg] }

/-- Reads a word after two hyphens. -/
def readWord (r : Reading) (body : List Char) : Except Interruption Reading :=
  let (name, value) :=
    match Text.splitAtFirst? (· = '=') body with
    | some (name, value) => (String.ofList name, some (String.ofList value))
    | none => (String.ofList body, none)
  match g.parameters.find? (·.name = name), value with
  | some p, some value => r.setValue p value
  | some p, none => .ok { r with pending := some p }
  | none, none =>
    if name = "help" then .error .help
    else if name = "version" && g.hasVersion then .error .version
    else .error .misuse
  | none, some _ => .error .misuse

/-- Reads a letter after one hyphen, and what stands behind it. -/
def readLetter (r : Reading) (letter : Char) (behind : List Char) :
    Except Interruption Reading :=
  match g.parameters.find? (·.letter = some letter), behind with
  | some p, [] => .ok { r with pending := some p }
  | some p, '=' :: value => r.setValue p (String.ofList value)
  | some p, value => r.setValue p (String.ofList value)
  | none, _ =>
    if letter = 'h' then .error .help
    else if letter = 'V' && g.hasVersion then .error .version
    else .error .misuse

/-- Reads one argument. -/
def read (r : Reading) (arg : String) : Except Interruption Reading :=
  if r.onlyOperands then g.readOperand r arg
  else
    match r.pending, arg.toList with
    | none, ['-', '-'] => .ok { r with onlyOperands := true }
    | none, '-' :: '-' :: body => g.readWord r body
    | none, '-' :: letter :: behind => g.readLetter r letter behind
    | none, _ => g.readOperand r arg
    | some _, '-' :: _ :: _ => .error .misuse
    | some p, _ => r.setValue p arg

/-- Whether an argument is a command that ends this place. -/
def stopsAt (r : Reading) (arg : String) : Bool :=
  !r.onlyOperands && r.pending.isNone && g.commands.contains arg

/-- Reads arguments up to a command; gives the rest from there on. -/
def readAll (r : Reading) : List String → Except Interruption (Reading × List String)
  | [] => if r.pending.isSome then .error .misuse else .ok (r, [])
  | arg :: rest =>
    if g.stopsAt r arg then .ok (r, arg :: rest)
    else do readAll (← g.read r arg) rest

end Grammar

/-! ### The command line of this program -/

def isPath (s : String) : Bool := s ≠ ""

def formatParameter : Parameter where
  name := "format"
  letter := some 'f'
  accepts := fun s => (Format.names.lookup s).isSome

/-- The options before the command. -/
def mainGrammar : Grammar where
  parameters := [{ name := "config", letter := some 'c', accepts := isPath }, formatParameter]
  operands := some 0
  commands := ["repl", "check", "lower", "export", "eval", "expr", "conditions", "help"]
  hasVersion := true

/-- The arguments of a command on a definition file. -/
def fileGrammar (parameters : List Parameter) : Grammar where
  parameters := parameters
  operands := some 1
  acceptsOperand := isPath

def textGrammar (operands : Option Nat) : Grammar where
  operands := operands

/-- Reads all arguments of a command. -/
def readWith (g : Grammar) (args : List String) : Except Interruption Reading := do
  let (r, _) ← g.readAll {} args
  return r

/-- What has to be there. -/
def required {α : Type} : Option α → Except Interruption α
  | some a => .ok a
  | none => .error .misuse

/-- Reads the arguments of a command; `repl` starts a session instead. -/
def readCommand (name : String) (args : List String) :
    Except Interruption (Option Command) := do
  match name with
  | "repl" =>
    let _ ← readWith (textGrammar (some 0)) args
    return none
  | "check" =>
    let r ← readWith (fileGrammar []) args
    return some (.check (← required r.operands.head?))
  | "lower" =>
    let r ← readWith (fileGrammar []) args
    return some (.lower (← required r.operands.head?))
  | "export" =>
    let r ← readWith (fileGrammar [{ name := "name", letter := some 'n' }]) args
    return some (.template (← required r.operands.head?) (r.values.lookup "name"))
  | "eval" =>
    let r ← readWith
      (fileGrammar [{ name := "set", letter := some 's' }, { name := "from" }]) args
    return some (.eval (← required r.operands.head?) (← required (r.values.lookup "set"))
      (r.values.lookup "from"))
  | "expr" =>
    let r ← readWith (textGrammar (some 1)) args
    return some (.expr (← required r.operands.head?))
  | "conditions" =>
    let r ← readWith (textGrammar none) args
    if r.operands.isEmpty then throw .misuse
    return some (.conditions r.operands)
  | "help" =>
    match args with
    | [] => throw .help
    | [topic] => throw (if mainGrammar.commands.contains topic then .help else .misuse)
    | _ => throw .misuse
  | _ => throw .misuse

end Arguments

/-- What the arguments ask for. -/
structure Invocation where
  /-- The settings file. -/
  config : Option String
  /-- The output format, instead of the one set. -/
  format : Option Format
  /-- The command to run; without one, a session is held. -/
  command : Option Command
  deriving DecidableEq, Repr

/-- Reads the arguments of the program.  The environment may name the settings file. -/
def Invocation.parse (env : Environment) (args : List String) :
    Except Interruption Invocation := do
  let (r, rest) ← Arguments.mainGrammar.readAll {} args
  let command ← match rest with
    | [] => pure none
    | name :: args => Arguments.readCommand name args
  let config := (r.values.lookup "config").or (env "FSMHDL_CONFIG")
  if config = some "" then throw .misuse
  let format := (r.values.lookup "format").bind fun name => Format.names.lookup name
  return { config, format, command }

end Moore
