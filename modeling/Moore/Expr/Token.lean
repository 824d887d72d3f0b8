import Moore.Identifier
import Moore.Text.Blank

/-
# Tokens of condition texts

White space separates tokens and is otherwise skipped.  A word is a letter and all
letters, digits and underscores that follow it; every other character is a token by
itself.  The parser sees of a token its kind only, so operators and constants can be
spelt in any of their ways; position and spelling serve the error messages.
-/

namespace Moore

/-- What a token means to the grammar. -/
inductive TokenKind where
  | lit (value : Bool)
  | var (name : String)
  | not
  | and
  | or
  | opening
  | closing
  /-- A character without meaning. -/
  | other
  deriving DecidableEq, Repr

/-- A token of a condition text. -/
structure Token where
  kind : TokenKind
  /-- The byte position of the first character. -/
  position : Nat
  /-- The characters of the token; there is at least one. -/
  spelling : List Char
  deriving DecidableEq, Repr

namespace Token

/-- The meaning of a word. -/
def wordKind (word : String) : TokenKind :=
  if Text.sameWord word "true" then .lit true
  else if Text.sameWord word "false" then .lit false
  else if Text.sameWord word "and" then .and
  else if Text.sameWord word "or" then .or
  else if Text.sameWord word "not" then .not
  else .var word

/-- The meaning of a character that belongs to no word. -/
def markKind : Char → TokenKind
  | '!' | '~' => .not
  | '&' => .and
  | '|' | ',' => .or
  | '(' => .opening
  | ')' => .closing
  | _ => .other

/-- The word read so far, last character first, as a token that ends before `position`. -/
def ofWord? (word : List Char) (position : Nat) : Option Token :=
  if word.isEmpty then none
  else some ⟨wordKind (String.ofList word.reverse), position - word.length, word.reverse⟩

/-- Reads the tokens from a byte position on; `word` holds the characters of an
unfinished word, last first.  Those are ASCII characters of one byte each. -/
def scan (word : List Char) (position : Nat) : List Char → List Token
  | [] => (ofWord? word position).toList
  | c :: cs =>
    let next := position + c.utf8Size
    if if word.isEmpty then c.isAlpha else isWordChar c then scan (c :: word) next cs
    else (ofWord? word position).toList ++
      if Text.isBlank c then scan [] next cs
      else ⟨markKind c, position, [c]⟩ :: scan [] next cs

/-- The tokens of a text. -/
def ofText (text : String) : List Token :=
  scan [] 0 text.toList

end Token

end Moore
