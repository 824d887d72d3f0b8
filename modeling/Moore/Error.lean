import Moore.Condition
import Moore.Handle

/-
# Errors of the model

Why an operation on states, transitions and machines failed.
-/

namespace Moore

inductive ModelError where
  /-- A name is no identifier, or a value no level. -/
  | expr (error : ExprError)
  /-- A text is no condition. -/
  | condition (text : String) (reason : ExprError)
  /-- A condition has no relational text. -/
  | conversion (condition : Condition) (reason : ExprError)
  | filterMode (text : String)
  | unknownState (id : StateId)
  | unknownTransition (id : TransitionId)
  /-- Several states of a set have one name. -/
  | duplicateName (name : String) (count : Nat)
  /-- Some states of a set have an output that others lack. -/
  | unevenOutput (output : String) (count members : Nat)
  /-- States are left and never entered. -/
  | unreachable (states : List String)
  /-- States are entered and never left. -/
  | unexitable (states : List String)
  deriving DecidableEq

namespace ModelError

def code : ModelError → String
  | expr e => e.code
  | condition .. => "CONDITION_EXPRESSION"
  | conversion .. => "CONDITION_CONVERSION"
  | filterMode _ => "INVALID_VALUE"
  | unknownState _ => "UNKNOWN_STATE"
  | unknownTransition _ => "UNKNOWN_TRANSITION"
  | duplicateName .. | unevenOutput .. => "INVALID_STATES"
  | unreachable _ => "UNREACHABLE_STATE"
  | unexitable _ => "UNEXITABLE_STATE"

/-- Names in a row. -/
def listed (names : List String) : String :=
  ", ".intercalate names

def message : ModelError → String
  | expr e => e.message
  | condition text reason => s!"invalid condition expression '{text}': {reason.message}"
  | conversion c reason =>
    s!"cannot convert condition '{c.text}': {reason.message}"
  | filterMode text => s!"invalid filter mode '{text}': expected \"and\" or \"or\""
  | unknownState id => s!"unknown state handle {id.text}"
  | unknownTransition id => s!"unknown transition handle {id.text}"
  | duplicateName name count => s!"invalid states: state name '{name}' is used {count} times"
  | unevenOutput output count members =>
    s!"invalid states: output '{output}' is defined by {count} of {members} states"
  | unreachable states => s!"states {listed states} are not reachable"
  | unexitable states => s!"states {listed states} are not exitable"

/-- Whether the error lies in the shape of the machine as a graph. -/
def isGraph : ModelError → Bool
  | duplicateName .. | unevenOutput .. | unreachable _ | unexitable _ => true
  | _ => false

/-- Whether the error lies in the text of a condition. -/
def isSyntax : ModelError → Bool
  | expr e => e.isSyntax
  | condition .. => true
  | _ => false

end ModelError

namespace Condition

/-- Reads a condition text. -/
def parse (text : String) : Except ModelError Condition :=
  (Expr.parse text).mapError (.condition text)

/-- The relational text of a condition. -/
def relational (c : Condition) : Except ModelError String :=
  (Expr.relational c).mapError (.conversion c)

end Condition

end Moore
