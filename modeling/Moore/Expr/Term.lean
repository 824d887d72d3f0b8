import Moore.NameMap
import Moore.Ordered

/-
# Terms

A term gives each of its inputs a polarity and stands for the conjunction of these
literals; read as a clause it stands for their disjunction.  A name has one polarity, so
no term is contradictory: two terms that disagree have no conjunction.
-/

namespace Moore

/-- Literals over different inputs. -/
abbrev Term := NameMap Bool

namespace Term

/-- The term of one literal. -/
def single (x : String) (polarity : Bool) : Term where
  entries := [(x, polarity)]

/-- Whether some input has opposite polarities in the two terms. -/
def conflict (s t : Term) : Bool :=
  t.entries.any fun l => s.get? l.1 = some (!l.2)

/-- The literals of both terms, unless two of them contradict each other. -/
def merge? (s t : Term) : Option Term :=
  if s.conflict t then none else some (t.entries.foldl (fun m l => m.insert l.1 l.2) s)

/-- Whether every literal of `s` belongs to `t`. -/
def isSubterm (s t : Term) : Bool :=
  s.entries.all fun l => t.get? l.1 = some l.2

/-- Compares literals by name, the negative one first. -/
def cmpLiteral (a b : String × Bool) : Ordering :=
  (compare a.1 b.1).then (compare a.2 b.2)

/-- Compares terms by the number of literals, then lexicographically. -/
def cmp (s t : Term) : Ordering :=
  (compare s.size t.size).then (List.compareLex cmpLiteral s.entries t.entries)

/-- Keeps the terms that contain neither a term of `kept` nor one kept before them. -/
def sift (kept : List Term) : List Term → List Term
  | [] => []
  | t :: ts => if kept.any (·.isSubterm t) then sift kept ts else t :: sift (t :: kept) ts

/-- The terms that contain no other term of the list, each once, shorter ones first. -/
def minimize (ts : List Term) : List Term :=
  sift [] (Ordered.ofList cmp ts)

/-- All conjunctions of a term of the first list and one of the second. -/
def cross (ss ts : List Term) : List Term :=
  ss.flatMap fun s => ts.filterMap s.merge?

/-- The literals with the opposite polarity. -/
def opposite (t : Term) : Term :=
  t.mapValues (!·)

end Term

end Moore
