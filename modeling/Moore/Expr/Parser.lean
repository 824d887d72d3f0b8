import Moore.Expr.Error
import Moore.Expr.Token

/-
# Reading condition texts

From loose to tight binding:

    disjunction := conjunction (or conjunction)*
    conjunction := factor (and factor)*
    factor      := not factor | opening disjunction closing | constant | name

A chain of one operand is that operand; a longer chain is a single node.  At most
`maxNesting` parentheses and negations may be open at once: the number still available
is the argument on which the parser recurses.
-/

namespace Moore

/-- The greatest number of parentheses and negations open at once. -/
def maxNesting : Nat := 256

namespace Parser

/-- A part of the grammar: what it reads and the tokens left. -/
abbrev Reader := List Token → Except ExprError (Expr × List Token)

/-- Reads `item`s after operators of the kind `op`; `bound` is at least the number of
tokens. -/
def more (op : TokenKind) (item : Reader) :
    (bound : Nat) → List Token → Except ExprError (List Expr × List Token)
  | 0, ts => .ok ([], ts)
  | _, [] => .ok ([], [])
  | bound + 1, t :: ts =>
    if t.kind = op then do
      let (e, ts) ← item ts
      let (es, ts) ← more op item bound ts
      return (e :: es, ts)
    else .ok ([], t :: ts)

/-- Reads one or more `item`s with operators of the kind `op` between them. -/
def chain (op : TokenKind) (node : Connective) (item : Reader) : Reader := fun ts => do
  let (e, ts) ← item ts
  let (es, ts) ← more op item ts.length ts
  return (Expr.joined node (e :: es), ts)

/-- Reads a disjunction of conjunctions of what `factor` reads. -/
def disjunction (factor : Reader) : Reader :=
  chain .or .or (chain .and .and factor)

/-- The fault of a token where an operand is wanted. -/
def noOperand (t : Token) : SyntaxFault :=
  match t.kind, t.spelling with
  | .closing, _ => .unbalanced
  | _, c :: cs => if c.isAlpha then .operatorWord (String.ofList (c :: cs)) else .unknownToken c
  | _, [] => .unexpectedEnd

/-- Drops the parenthesis that closes the one at `opening`. -/
def close (stop opening : Nat) : List Token → Except ExprError (List Token)
  | [] => .error (.badSyntax stop (.unclosed opening))
  | t :: ts =>
    if t.kind = .closing then .ok ts else .error (.badSyntax t.position (.unclosed opening))

/-- Reads a factor with `depth` parentheses and negations still available; `stop` is the
length of the text. -/
def factor (stop : Nat) : (depth : Nat) → Reader
  | _, [] => .error (.badSyntax stop .unexpectedEnd)
  | depth, t :: ts =>
    match t.kind, depth with
    | .lit b, _ => .ok (.lit b, ts)
    | .var x, _ => .ok (.var x, ts)
    | .not, 0 | .opening, 0 => .error (.badSyntax t.position .tooDeep)
    | .not, depth + 1 => do
      let (e, ts) ← factor stop depth ts
      return (.not e, ts)
    | .opening, depth + 1 => do
      let (e, ts) ← disjunction (factor stop depth) ts
      let ts ← close stop t.position ts
      return (e, ts)
    | _, _ => .error (.badSyntax t.position (noOperand t))

/-- The fault of tokens left after an expression. -/
def leftOver (t : Token) : SyntaxFault :=
  match t.kind, t.spelling with
  | .closing, _ => .unbalanced
  | _, c :: _ => .trailing c
  | _, [] => .unexpectedEnd

/-- Reads all tokens of a text of `stop` bytes as one expression. -/
def parseTokens (stop : Nat) (ts : List Token) : Except ExprError Expr := do
  if ts.isEmpty then throw (.badSyntax 0 .emptyText)
  let (e, rest) ← disjunction (factor stop maxNesting) ts
  match rest with
  | [] => return e
  | t :: _ => throw (.badSyntax t.position (leftOver t))

end Parser

/-- Reads a condition text. -/
def Expr.parse (text : String) : Except ExprError Expr :=
  Parser.parseTokens text.utf8ByteSize (Token.ofText text)

end Moore
