import Moore.Ordered

/-
# Boolean expressions

The expressions that guard transitions.  Conjunction and disjunction take a list of
operands and obey the same laws with the constants exchanged, so they share one
constructor, indexed by the connective.
-/

namespace Moore

/-- The two connectives that take a list of operands. -/
inductive Connective where
  | and
  | or
  deriving DecidableEq, Repr, Inhabited

namespace Connective

def dual : Connective → Connective
  | and => or
  | or => and

/-- The constant that changes nothing as an operand. -/
def unit : Connective → Bool
  | and => true
  | or => false

/-- The constant that decides the whole node as an operand. -/
def zero (op : Connective) : Bool := !op.unit

/-- How tightly the connective binds: conjunction binds tighter. -/
def precedence : Connective → Nat
  | and => 2
  | or => 1

/-- The word that names the connective. -/
def keyword : Connective → String
  | and => "and"
  | or => "or"

@[simp] theorem dual_dual (op : Connective) : op.dual.dual = op := by
  cases op <;> rfl

end Connective

/-- A Boolean expression over named inputs.

Condition texts give every connective at least two operands; built directly, a node
may have any number. -/
inductive Expr where
  /-- A constant. -/
  | lit (value : Bool)
  /-- The input of this name. -/
  | var (name : String)
  | not (operand : Expr)
  /-- All operands, or any of them. -/
  | nary (op : Connective) (operands : List Expr)
  deriving Repr, Inhabited

namespace Expr

/-- The operands joined by a connective: none give its unit, a single one stands alone. -/
def joined (op : Connective) : List Expr → Expr
  | [] => .lit op.unit
  | [e] => e
  | es => .nary op es

/-- How tightly the outermost operator binds; 0 stands for atoms, which have none. -/
def precedence : Expr → Nat
  | .lit _ | .var _ => 0
  | .nary op _ => op.precedence
  | .not _ => 3

def isTrue : Expr → Bool
  | .lit b => b
  | _ => false

def isFalse : Expr → Bool
  | .lit b => !b
  | _ => false

theorem isTrue_iff {e : Expr} : e.isTrue = true ↔ e = .lit true := by
  cases e <;> simp [isTrue]

theorem isFalse_iff {e : Expr} : e.isFalse = true ↔ e = .lit false := by
  cases e <;> simp [isFalse]

mutual

/-- The input names from left to right, with repetitions. -/
def occurrences : Expr → List String
  | .lit _ => []
  | .var x => [x]
  | .not e => e.occurrences
  | .nary _ es => occurrencesAll es

def occurrencesAll : List Expr → List String
  | [] => []
  | e :: es => e.occurrences ++ occurrencesAll es

end

/-- The input names, each once, in increasing order. -/
def inputs (e : Expr) : List String :=
  Ordered.ofList compare e.occurrences

/-- Induction over an expression, with the hypothesis for all operands of a node at once. -/
@[elab_as_elim, induction_eliminator]
theorem induction_operands {motive : Expr → Prop} (lit : ∀ value, motive (.lit value))
    (var : ∀ name, motive (.var name)) (not : ∀ operand, motive operand → motive (.not operand))
    (nary : ∀ op operands, (∀ e ∈ operands, motive e) → motive (.nary op operands)) :
    ∀ e : Expr, motive e
  | .lit b => lit b
  | .var x => var x
  | .not e => not e (induction_operands lit var not nary e)
  | .nary op es => nary op es fun e _ => induction_operands lit var not nary e

attribute [local simp] occurrences occurrencesAll

theorem occurrencesAll_eq (es : List Expr) : occurrencesAll es = es.flatMap occurrences := by
  induction es with
  | nil => simp
  | cons e es ih => simp [ih]

@[simp] theorem occurrences_lit (b : Bool) : (lit b).occurrences = [] := by simp

@[simp] theorem occurrences_var (x : String) : (var x).occurrences = [x] := by
  simp

@[simp] theorem occurrences_not (e : Expr) : (not e).occurrences = e.occurrences := by
  simp

@[simp] theorem mem_occurrences_nary {op : Connective} {es : List Expr} {x : String} :
    x ∈ (nary op es).occurrences ↔ ∃ e ∈ es, x ∈ e.occurrences := by
  simp [occurrencesAll_eq]

@[simp] theorem mem_inputs {e : Expr} {x : String} : x ∈ e.inputs ↔ x ∈ e.occurrences :=
  Ordered.mem_ofList

@[simp] theorem joined_nil (op : Connective) : joined op [] = .lit op.unit := rfl

@[simp] theorem joined_singleton (op : Connective) (e : Expr) : joined op [e] = e := rfl

@[simp] theorem joined_cons_cons (op : Connective) (e f : Expr) (es : List Expr) :
    joined op (e :: f :: es) = .nary op (e :: f :: es) := rfl

theorem joined_eq_nary {op : Connective} {es : List Expr} (h : 2 ≤ es.length) :
    joined op es = nary op es := by
  match es with
  | [] | [_] => simp at h
  | _ :: _ :: _ => rfl

theorem mem_occurrences_joined {op : Connective} {es : List Expr} {x : String} :
    x ∈ (joined op es).occurrences ↔ ∃ e ∈ es, x ∈ e.occurrences := by
  match es with
  | [] => simp
  | [e] => simp
  | _ :: _ :: _ => exact mem_occurrences_nary

end Expr

end Moore
