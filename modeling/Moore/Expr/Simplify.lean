import Moore.Expr.Order

/-
# Simplification

Bottom-up: double negation, constants, flattening of nested nodes of one connective,
duplicates, the complement law and absorption.  The operands of a simplified node are
in increasing order; the result is not a canonical form.
-/

namespace Moore.Expr

/-- The operands of a node of the connective `op`; any other expression is its own only
operand. -/
def operandsOf (op : Connective) : Expr → List Expr
  | .nary op' es => if op' = op then es else [.nary op' es]
  | e => [e]

/-- Negates a simplified expression. -/
def negated : Expr → Expr
  | .lit b => .lit !b
  | .not e => e
  | e => .not e

/-- Whether some operand stands beside its negation. -/
def hasComplement (es : List Expr) : Bool :=
  es.any fun
    | .not e => es.contains e
    | _ => false

/-- Whether the operand `f` is absorbed by `e`: under the dual connective `e` has fewer
operands than `f`, all of them among those of `f`. -/
def absorbs (op : Connective) (e f : Expr) : Bool :=
  let part := operandsOf op.dual e
  let whole := operandsOf op.dual f
  part.length < whole.length && part.all whole.contains

/-- The operands that no other operand absorbs: `x & (x | y)` keeps `x` alone. -/
def absorb (op : Connective) (es : List Expr) : List Expr :=
  es.filter fun f => !es.any (absorbs op · f)

/-- The operands that simplified operands stand for: constants dropped, nodes of the same
connective opened, each operand once and in order. -/
def collect (op : Connective) (es : List Expr) : List Expr :=
  Ordered.ofList cmp <| es.flatMap fun
    | .lit _ => []
    | e => operandsOf op e

/-- The node of the connective `op` over simplified operands, simplified. -/
def simplifyNode (op : Connective) (es : List Expr) : Expr :=
  let flat := collect op es
  if es.contains (.lit op.zero) || hasComplement flat then .lit op.zero
  else joined op (absorb op flat)

mutual

/-- An equivalent expression without needless parts. -/
def simplify : Expr → Expr
  | .lit b => .lit b
  | .var x => .var x
  | .not e => negated e.simplify
  | .nary op es => simplifyNode op (simplifyAll es)

def simplifyAll : List Expr → List Expr
  | [] => []
  | e :: es => e.simplify :: simplifyAll es

end

attribute [local simp] simplify simplifyAll

theorem simplifyAll_eq (es : List Expr) : simplifyAll es = es.map simplify := by
  induction es with
  | nil => simp
  | cons e es ih => simp [ih]

@[simp] theorem simplify_lit (b : Bool) : (lit b).simplify = lit b := by simp

@[simp] theorem simplify_var (x : String) : (var x).simplify = var x := by simp

theorem simplify_not (e : Expr) : (not e).simplify = negated e.simplify := by simp

theorem simplify_nary (op : Connective) (es : List Expr) :
    (nary op es).simplify = simplifyNode op (es.map simplify) := by
  simp [simplifyAll_eq]

end Moore.Expr
