import Moore.Expr.Term
import Moore.Expr.Order

/-
# Normal forms

Negation normal form pushes negations down to the inputs.  The disjunctive normal form
of an expression is built from its terms, the minimal consistent conjunctions of literals
that make it true; the conjunctive one from the terms of its negation.  The number of
terms can grow exponentially.
-/

namespace Moore.Expr

mutual

/-- Negation normal form of the expression, or of its negation if `neg`. -/
def nnfWith (neg : Bool) : Expr → Expr
  | .lit b => .lit (b != neg)
  | .var x => if neg then .not (.var x) else .var x
  | .not e => nnfWith (!neg) e
  | .nary op es => .nary (if neg then op.dual else op) (nnfAll neg es)

def nnfAll (neg : Bool) : List Expr → List Expr
  | [] => []
  | e :: es => nnfWith neg e :: nnfAll neg es

end

/-- An equivalent expression with negations above inputs only. -/
def nnf (e : Expr) : Expr :=
  nnfWith false e

mutual

/-- The terms of the expression, or of its negation if `neg`. -/
def termsWith (neg : Bool) : Expr → List Term
  | .lit b => if b != neg then [∅] else []
  | .var x => [Term.single x (!neg)]
  | .not e => termsWith (!neg) e
  | .nary op es =>
    match if neg then op.dual else op with
    | .or => Term.minimize (sumTerms neg es)
    | .and => productTerms neg [∅] es

/-- The terms of all operands. -/
def sumTerms (neg : Bool) : List Expr → List Term
  | [] => []
  | e :: es => termsWith neg e ++ sumTerms neg es

/-- The terms so far, conjoined with those of the operands one after the other; nothing
more is to be done once none is left. -/
def productTerms (neg : Bool) (acc : List Term) : List Expr → List Term
  | [] => acc
  | e :: es =>
    let next := Term.minimize (Term.cross acc (termsWith neg e))
    if next.isEmpty then [] else productTerms neg next es

end

/-- The terms of an expression. -/
def terms (e : Expr) : List Term :=
  termsWith false e

/-- The clauses of an expression: the terms of its negation, each negated. -/
def clauses (e : Expr) : List Term :=
  (termsWith true e).map Term.opposite

def literal (l : String × Bool) : Expr :=
  if l.2 then .var l.1 else .not (.var l.1)

/-- The literals of each term joined by the dual of `op`, and these by `op`. -/
def ofTerms (op : Connective) (ts : List Term) : Expr :=
  joined op (ts.map fun t => joined op.dual (t.entries.map literal))

/-- A disjunction of conjunctions of literals; false if the expression is unsatisfiable. -/
def dnf (e : Expr) : Expr :=
  ofTerms .or e.terms

/-- A conjunction of disjunctions of literals; true if the expression is a tautology. -/
def cnf (e : Expr) : Expr :=
  ofTerms .and e.clauses

theorem nnfAll_eq (neg : Bool) (es : List Expr) : nnfAll neg es = es.map (nnfWith neg) := by
  induction es with
  | nil => simp [nnfAll]
  | cons e es ih => simp [nnfAll, ih]

theorem sumTerms_eq (neg : Bool) (es : List Expr) :
    sumTerms neg es = es.flatMap (termsWith neg) := by
  induction es with
  | nil => simp [sumTerms]
  | cons e es ih => simp [sumTerms, ih]

end Moore.Expr
