import Moore.Expr.Basic

/-
# Errors about expressions

Why a text is no expression, an expression no relational text, a name no identifier or
a value no level.
-/

namespace Moore

/-- What is wrong at one position of a condition text. -/
inductive SyntaxFault where
  /-- The text is blank. -/
  | emptyText
  /-- The text ends where an operand is wanted. -/
  | unexpectedEnd
  /-- An operator word stands where an operand is wanted. -/
  | operatorWord (word : String)
  /-- A character stands where an operand is wanted. -/
  | unknownToken (c : Char)
  /-- A closing parenthesis has no opening one. -/
  | unbalanced
  /-- The parenthesis opened at a position is not closed. -/
  | unclosed (opening : Nat)
  /-- The expression is over and the text is not. -/
  | trailing (c : Char)
  /-- Too many parentheses and negations are open at once. -/
  | tooDeep
  deriving DecidableEq, Repr

def SyntaxFault.message : SyntaxFault → String
  | emptyText => "empty expression"
  | unexpectedEnd => "unexpected end of expression"
  | operatorWord word => s!"unexpected operator '{word}'"
  | unknownToken c => s!"unknown token '{c}'"
  | unbalanced => "unbalanced ')'"
  | unclosed opening => s!"expected ')' to close '(' at position {opening}"
  | trailing c => s!"unexpected '{c}' after expression"
  | tooDeep => "expression nested too deeply"

/-- Why an operation on expressions failed. -/
inductive ExprError where
  /-- A condition text is malformed at a byte position. -/
  | badSyntax (position : Nat) (fault : SyntaxFault)
  /-- A node has fewer than two operands. -/
  | malformedNode (op : Connective) (operands : Nat)
  | invalidIdentifier (name : String)
  | invalidValue (value : String)
  deriving DecidableEq, Repr

namespace ExprError

def code : ExprError → String
  | badSyntax .. => "EXPRESSION_SYNTAX"
  | malformedNode .. => "MALFORMED_EXPRESSION"
  | invalidIdentifier _ => "INVALID_IDENTIFIER"
  | invalidValue _ => "INVALID_VALUE"

def message : ExprError → String
  | badSyntax position fault => s!"syntax error at position {position}: {fault.message}"
  | malformedNode op operands =>
    s!"malformed expression node: '{op.keyword}' node needs at least 2 operands, found {operands}"
  | invalidIdentifier name => s!"'{name}' is not a valid identifier"
  | invalidValue value =>
    s!"value '{value}' is not a logic level (expected 0, 1, true or false)"

/-- Whether the error lies in the text of a condition. -/
def isSyntax : ExprError → Bool
  | badSyntax .. => true
  | _ => false

end ExprError

/-- A reminder of the condition syntax, shown with syntax errors. -/
def grammarHelp : String :=
  "operators: not = '!', '~', 'not'; and = '&', 'and'; or = '|', ',', 'or'; " ++
    "literals: TRUE, FALSE; identifiers start with a letter followed by letters, digits or '_'"

end Moore
