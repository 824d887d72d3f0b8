import Moore.Expr.Basic

/-
# Truth of expressions

`Expr.eval` is the meaning of an expression: its value when every input has one.  An
empty conjunction is true and an empty disjunction false.
-/

namespace Moore.Expr

mutual

/-- The value of an expression when the input `x` has the value `σ x`. -/
def eval (σ : String → Bool) : Expr → Bool
  | .lit b => b
  | .var x => σ x
  | .not e => !e.eval σ
  | .nary .and es => evalAll σ es
  | .nary .or es => evalAny σ es

def evalAll (σ : String → Bool) : List Expr → Bool
  | [] => true
  | e :: es => e.eval σ && evalAll σ es

def evalAny (σ : String → Bool) : List Expr → Bool
  | [] => false
  | e :: es => e.eval σ || evalAny σ es

end

attribute [local simp] eval evalAll evalAny

theorem evalAll_eq (σ : String → Bool) (es : List Expr) : evalAll σ es = es.all (eval σ) := by
  induction es with
  | nil => simp
  | cons e es ih => simp [ih]

theorem evalAny_eq (σ : String → Bool) (es : List Expr) : evalAny σ es = es.any (eval σ) := by
  induction es with
  | nil => simp
  | cons e es ih => simp [ih]

@[simp] theorem eval_lit (σ : String → Bool) (b : Bool) : (lit b).eval σ = b := by
  simp

@[simp] theorem eval_var (σ : String → Bool) (x : String) : (var x).eval σ = σ x := by
  simp

@[simp] theorem eval_not (σ : String → Bool) (e : Expr) : (not e).eval σ = !e.eval σ := by
  simp

@[simp] theorem eval_and (σ : String → Bool) (es : List Expr) :
    (nary .and es).eval σ = es.all (eval σ) := by
  simp [evalAll_eq]

@[simp] theorem eval_or (σ : String → Bool) (es : List Expr) :
    (nary .or es).eval σ = es.any (eval σ) := by
  simp [evalAny_eq]

end Moore.Expr
