/-
# Positions in a YAML text

A cursor is the rest of a text together with its line and column.  Line breaks are the
usual ones and three of Unicode; the usual ones and the next-line control are read as a
line feed.
-/

namespace Moore.Yaml

def isBreak (c : Char) : Bool :=
  c = '\n' || c = '\r' || c = '\u0085' || c = '\u2028' || c = '\u2029'

def isBlank (c : Char) : Bool :=
  c = ' ' || c = '\t'

def isBlankOrBreak (c : Char) : Bool :=
  isBlank c || isBreak c

/-- Letters, digits, hyphens and underscores, which make up the names in a text. -/
def isNameChar (c : Char) : Bool :=
  c.isAlphanum || c = '-' || c = '_'

/-- Whether a text is over or goes on with a blank or a break. -/
def endsWord : List Char → Bool
  | [] => true
  | c :: _ => isBlankOrBreak c

/-- Whether a text may hold the character at all. -/
def isAllowed (c : Char) : Bool :=
  c = '\t' || c = '\n' || c = '\r' || (' ' ≤ c && c ≤ '~') || c = '\u0085' ||
    ('\u00a0' ≤ c && c.toNat ≤ 0xFFFD) || 0x10000 ≤ c.toNat

/-- The mark that may stand at the start of a text. -/
def byteOrderMark : Char := '\ufeff'

/-- A position in a text. -/
structure Cursor where
  rest : List Char
  /-- The number of characters before. -/
  index : Nat := 0
  line : Nat := 0
  column : Nat := 0
  deriving Inhabited

namespace Cursor

/-- Passes `n` characters of the line. -/
def advance (c : Cursor) (n : Nat) : Cursor :=
  { c with rest := c.rest.drop n, index := c.index + n, column := c.column + n }

/-- Reads the characters of the line that satisfy `p`. -/
def takeWhile (p : Char → Bool) (c : Cursor) : List Char × Cursor :=
  let taken := c.rest.takeWhile p
  (taken, c.advance taken.length)

/-- Passes the characters of the line that satisfy `p`. -/
def skipWhile (p : Char → Bool) (c : Cursor) : Cursor :=
  (c.takeWhile p).2

/-- The start of the next line, after a break of `n` characters. -/
def nextLine (c : Cursor) (n : Nat) : Cursor where
  rest := c.rest.drop n
  index := c.index + n
  line := c.line + 1
  column := 0

/-- Reads a line break, if there is one. -/
def readBreak? (c : Cursor) : Option (List Char × Cursor) :=
  match c.rest with
  | '\r' :: '\n' :: _ => some (['\n'], c.nextLine 2)
  | ch :: _ =>
    if ch = '\u2028' || ch = '\u2029' then some ([ch], c.nextLine 1)
    else if isBreak ch then some (['\n'], c.nextLine 1)
    else none
  | [] => none

/-- Whether the text goes on with a given character. -/
def startsWith (c : Cursor) (ch : Char) : Bool :=
  c.rest.head? = some ch

/-- Whether a line starts here with the mark of the start or end of a document. -/
def atDocumentMark (c : Cursor) : Bool :=
  c.column = 0 &&
    match c.rest with
    | '-' :: '-' :: '-' :: cs | '.' :: '.' :: '.' :: cs => endsWord cs
    | _ => false

end Cursor

end Moore.Yaml
