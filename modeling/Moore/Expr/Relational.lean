import Moore.Expr.Error

/-
# Relational text

The form of a condition in the generated hardware description: an input is compared with
`'1'`, a negated input with `'0'`, and the connectives are the words `and`, `or` and
`not`.  A node is parenthesised where it binds looser than its surroundings.
-/

namespace Moore.Expr

mutual

/-- The relational text where at least the binding strength `context` is wanted. -/
def lower (context : Nat) : Expr → Except ExprError (List Char)
  | .lit true => .ok "true".toList
  | .lit false => .ok "false".toList
  | .var x => .ok (x.toList ++ "='1'".toList)
  | .not (.var x) => .ok (x.toList ++ "='0'".toList)
  | .not e => (e.lower 3).map fun t => "not (".toList ++ t ++ [')']
  | .nary op es =>
    if es.length < 2 then .error (.malformedNode op es.length)
    else
      (lowerAll op es).map fun t =>
        if op.precedence < context then '(' :: t ++ [')'] else t

/-- The operands of a node, with the keyword between them. -/
def lowerAll (op : Connective) : List Expr → Except ExprError (List Char)
  | [] => .ok []
  | [e] => e.lower op.precedence
  | e :: es => do
    let first ← e.lower op.precedence
    let rest ← lowerAll op es
    return first ++ ' ' :: op.keyword.toList ++ ' ' :: rest

end

/-- The relational text of an expression; fails at the first node, a node before its
operands, that has fewer than two operands. -/
def relational (e : Expr) : Except ExprError String :=
  (e.lower 0).map String.ofList

end Moore.Expr
