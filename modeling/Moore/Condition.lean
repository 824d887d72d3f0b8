import Moore.Expr.NormalForm
import Moore.Expr.Parser
import Moore.Expr.Printer
import Moore.Expr.Relational
import Moore.Expr.Substitute

/-
# Conditions

A condition is the expression that guards a transition.  Conditions that are examined
together form a list, in which equal ones count separately: they are exclusive if no
assignment of the inputs makes two of them true, and exhaustive if every assignment
makes one of them true.
-/

namespace Moore

abbrev Condition := Expr

namespace Condition

/-- The condition that always holds. -/
def always : Condition := .lit true

/-- Whether the bindings make the condition true. -/
def isSatisfiedBy (c : Condition) (b : Bindings) : Bool :=
  (c.substitute b).isTrue

/-- The text that shows a condition as such. -/
def shown (c : Condition) : String :=
  s!"Condition('{c.text}')"

/-- Whether some assignment of the inputs makes both conditions true. -/
def overlaps (c d : Condition) : Bool :=
  !(Expr.dnf (.nary .and [c, d])).simplify.isFalse

end Condition

/-- Conditions that are examined together. -/
abbrev ConditionSet := List Condition

/-- The pairs of an element of a list and a later one, in the order of the list. -/
def laterPairs {α : Type} : List α → List (α × α)
  | [] => []
  | a :: as => as.map (a, ·) ++ laterPairs as

namespace ConditionSet

/-- The inputs of all conditions, each once, in increasing order. -/
def inputs (cs : ConditionSet) : List String :=
  Ordered.ofList compare (cs.flatMap Expr.occurrences)

/-- The positions of the conditions that overlap, in pairs. -/
def overlappingPairs (cs : ConditionSet) : List (Nat × Nat) :=
  (laterPairs cs.zipIdx).filterMap fun p =>
    if Condition.overlaps p.1.1 p.2.1 then some (p.1.2, p.2.2) else none

/-- The positions of the first two conditions that overlap; the search stops there. -/
def firstOverlap? (cs : ConditionSet) : Option (Nat × Nat) :=
  ((laterPairs cs.zipIdx).find? fun p => Condition.overlaps p.1.1 p.2.1).map fun p =>
    (p.1.2, p.2.2)

/-- Whether no assignment of the inputs makes two of the conditions true. -/
def isExclusive (cs : ConditionSet) : Bool :=
  cs.firstOverlap?.isNone

/-- Whether every assignment of the inputs makes one of the conditions true. -/
def isExhaustive (cs : ConditionSet) : Bool :=
  (Expr.cnf (.nary .or (.lit false :: .lit false :: cs))).simplify.isTrue

end ConditionSet

end Moore
