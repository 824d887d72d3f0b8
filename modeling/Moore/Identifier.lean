import Moore.Expr.Error
import Moore.Text.Case

/-
# Identifiers

Names of inputs, states, outputs and entities.
-/

namespace Moore

/-- The words with a meaning of their own in condition texts. -/
def reservedWords : List String := ["true", "false", "and", "or", "not"]

/-- Whether a word, in whatever case, is reserved. -/
def isReserved (word : String) : Bool :=
  reservedWords.any (Text.sameWord · word)

/-- The characters after the first of an identifier. -/
def isWordChar (c : Char) : Bool :=
  c.isAlphanum || c = '_'

/-- Whether a name is an identifier: an ASCII letter, then ASCII letters, digits and
underscores, and not a reserved word. -/
def isIdentifier (name : String) : Bool :=
  match name.toList with
  | [] => false
  | c :: cs => c.isAlpha && cs.all isWordChar && !isReserved name

/-- Refuses a name that is no identifier. -/
def checkIdentifier (name : String) : Except ExprError Unit :=
  if isIdentifier name then .ok () else .error (.invalidIdentifier name)

end Moore
