import Moore.Expr.Basic

/-
# The text of expressions

The canonical condition text, with `!`, `&`, `|`, `TRUE` and `FALSE`.  An operand is
parenthesised where it would otherwise be read as part of the node around it, also under
a node of its own connective, so that the text reads back as the same tree.
-/

namespace Moore.Expr

/-- Whether an operand of the connective `op` stands in parentheses. -/
def needsParens (op : Connective) : Expr → Bool
  | .nary .or _ => true
  | .nary .and _ => op = .and
  | _ => false

/-- Whether the expression is a node of a connective. -/
def isNary : Expr → Bool
  | .nary .. => true
  | _ => false

def parenthesised (cs : List Char) : List Char :=
  '(' :: cs ++ [')']

/-- The operator between two operands. -/
def separator : Connective → List Char
  | .and => [' ', '&', ' ']
  | .or => [' ', '|', ' ']

mutual

/-- The characters of the canonical text. -/
def chars : Expr → List Char
  | .lit true => "TRUE".toList
  | .lit false => "FALSE".toList
  | .var x => x.toList
  | .not e => '!' :: if e.isNary then parenthesised e.chars else e.chars
  | .nary op es => charsAll op es

/-- The operands of a node, with the operator between them. -/
def charsAll (op : Connective) : List Expr → List Char
  | [] => []
  | [e] => if needsParens op e then parenthesised e.chars else e.chars
  | e :: es =>
    (if needsParens op e then parenthesised e.chars else e.chars) ++
      separator op ++ charsAll op es

end

/-- The canonical text. -/
def text (e : Expr) : String :=
  String.ofList e.chars

instance : ToString Expr := ⟨text⟩

end Moore.Expr
