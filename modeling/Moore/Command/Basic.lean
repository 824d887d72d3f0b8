import Moore.Report.Check
import Moore.Report.Condition
import Moore.Report.Transitions
import Moore.Template.Json

/-
# Commands

What the program does in one go: it reads a definition, an expression or conditions and
prints a report.
-/

namespace Moore

inductive Command where
  /-- Diagnoses a machine. -/
  | check (file : String)
  /-- Lists the transitions with the relational texts of their conditions. -/
  | lower (file : String)
  /-- Prints the template model, under a name of its own or the given one. -/
  | template (file : String) (name : Option String)
  /-- Lists the transitions that the inputs enable. -/
  | eval (file bindings : String) (source : Option String)
  /-- Describes an expression. -/
  | expr (text : String)
  /-- Examines conditions together. -/
  | conditions (texts : List String)
  deriving DecidableEq, Repr

/-- Why a command fails. -/
inductive CommandError where
  | definition (error : DefinitionError)
  | model (error : ModelError)
  | expr (error : ExprError)
  /-- An error that is told in a sentence of its own. -/
  | stated (message : String)

namespace CommandError

def message : CommandError → String
  | definition e => e.message
  | model e => e.message
  | expr e => e.message
  | stated message => message

/-- Whether the error lies in the text of an expression. -/
def isSyntax : CommandError → Bool
  | definition e => e.isSyntax
  | model e => e.isSyntax
  | expr e => e.isSyntax
  | stated _ => false

/-- The line that tells the error. -/
def line (colors : Bool) (e : CommandError) : String :=
  Text.paint colors .red "Error" ++ ": " ++ e.message

end CommandError

namespace Command

/-- The files that a command reads. -/
def paths : Command → List String
  | check file | lower file | template file _ | eval file _ _ => [file]
  | expr _ | conditions _ => []

variable (files : Files) (settings : Settings) (colors : Bool)

/-- Reads a definition file. -/
def load (path : String) : Except CommandError Definition :=
  (Definition.ofFile files path).mapError .definition

/-- What a command prints. -/
def run : Command → Except CommandError Outcome
  | check file => do
    let d ← load files file
    return (d.check settings.rules).outcome colors settings.output.format
  | lower file => do
    let d ← load files file
    return { text := ← (d.loweredText colors).mapError .model }
  | template file name => do
    let d ← load files file
    let model ← (d.template name).mapError .model
    return { text := settings.output.format.render model.toJson }
  | eval file bindings source => do
    let d ← load files file
    let b ← (Bindings.parse bindings).mapError .expr
    return { text := ← (d.enabledText colors b source).mapError .stated }
  | expr text => do
    let e ← (Expr.parse text).mapError .expr
    return { text := ← e.describe.mapError .expr }
  | conditions texts => do
    let cs ← (texts.mapM Condition.parse).mapError .model
    return { text := ConditionSet.describe colors cs }

end Command

end Moore
