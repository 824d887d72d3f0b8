import Moore.Error
import Moore.Text.Paint

/-
# Reports about conditions

One expression in all its forms, and whether conditions exclude each other and cover all
inputs.
-/

namespace Moore

/-- A line with a label in a column of ten characters. -/
def labelled (label value : String) : String :=
  label ++ String.ofList (List.replicate (10 - label.length) ' ') ++ " " ++ value

/-- The forms of an expression. -/
def Expr.describe (e : Expr) : Except ExprError String := do
  let relational ← e.relational
  return "\n".intercalate [
    labelled "expr" e.text,
    labelled "inputs" (", ".intercalate e.inputs),
    labelled "simplified" e.simplify.text,
    labelled "dnf" e.dnf.simplify.text,
    labelled "cnf" e.cnf.simplify.text,
    labelled "vhdl" relational]

namespace ConditionSet

/-- A word for whether something holds. -/
def answer (colors holds : Bool) : String :=
  if holds then Text.paint colors .green "yes" else Text.paint colors .red "no"

/-- The line of two conditions that overlap. -/
def overlapLine (p : Condition × Condition) : String :=
  s!"  '{p.1.text}' overlaps '{p.2.text}'"

/-- Whether conditions exclude each other and cover all inputs, and which of them overlap. -/
def describe (colors : Bool) (cs : ConditionSet) : String :=
  "\n".intercalate (
    ("exclusive: " ++ answer colors (isExclusive cs)) ::
    ("exhaustive: " ++ answer colors (isExhaustive cs)) ::
    ((laterPairs cs).filter fun p => Condition.overlaps p.1 p.2).map overlapLine)

end ConditionSet

end Moore
