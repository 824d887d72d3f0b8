import Moore.Bindings
import Moore.Expr.Simplify

/-
# Substitution

Bound inputs are replaced by their values and the result is simplified; an expression
evaluates when a constant is left.
-/

namespace Moore.Expr

mutual

/-- The expression with every bound input replaced by its value. -/
def replace (b : Bindings) : Expr → Expr
  | .lit v => .lit v
  | .var x =>
    match b.get? x with
    | some v => .lit v
    | none => .var x
  | .not e => .not (e.replace b)
  | .nary op es => .nary op (replaceAll b es)

def replaceAll (b : Bindings) : List Expr → List Expr
  | [] => []
  | e :: es => e.replace b :: replaceAll b es

end

/-- What is left of the expression once the bound inputs are known. -/
def substitute (e : Expr) (b : Bindings) : Expr :=
  (e.replace b).simplify

/-- The value of the expression, if the bindings decide it. -/
def evaluate (e : Expr) (b : Bindings) : Option Bool :=
  match e.substitute b with
  | .lit v => some v
  | _ => none

theorem replaceAll_eq (b : Bindings) (es : List Expr) : replaceAll b es = es.map (replace b) := by
  induction es with
  | nil => simp [replaceAll]
  | cons e es ih => simp [replaceAll, ih]

end Moore.Expr
