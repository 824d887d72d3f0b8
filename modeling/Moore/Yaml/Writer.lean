import Moore.Json.Basic
import Moore.Decimal.Shortest
import Moore.Yaml.Resolve
import Moore.Yaml.Text

/-
# Writing YAML

Values are written in block style, two columns per level; a sequence that is the value of a
key is not indented further.  A text is written plainly where it then reads back as itself,
else between quotes; one with line feeds is written as a literal block.
-/

namespace Moore.Yaml

/-! ### The styles of texts -/

/-- Whether a character shows in a text as it is. -/
def isPrintable (c : Char) : Bool :=
  c = '\n' || (' ' ≤ c && c ≤ '~') ||
    ('\u00a0' ≤ c && c ≠ byteOrderMark && c.toNat ≠ 0xFFFE && c.toNat ≠ 0xFFFF)

/-- The characters that no plain text starts with, wherever it goes on. -/
def leadingMarks : List Char :=
  ['#', ',', '[', ']', '\x7b', '\x7d', '&', '*', '!', '|', '>', '\x27', '"', '%', '@', '\x60']

/-- Whether a plain text would be taken for something else at its start. -/
def startsAsMark : List Char → Bool
  | '-' :: '-' :: '-' :: _ => true
  | '.' :: '.' :: '.' :: _ => true
  | c :: cs =>
    leadingMarks.contains c || (['?', ':', '-'].contains c && endsWord cs)
  | [] => false

/-- Whether a plain text would be taken for something else after its start: at a colon
before white space or a hash after it. -/
def hasMark : List Char → Bool
  | c :: d :: cs =>
    (d = ':' && endsWord cs) || (d = '#' && isBlankOrBreak c) || hasMark (d :: cs)
  | _ => false

/-- Whether some character that satisfies `p` is followed by one that satisfies `q`. -/
def hasPair (p q : Char → Bool) (cs : List Char) : Bool :=
  (cs.zip cs.tail).any fun (c, d) => p c && q d

def isSpace (c : Char) : Bool := c = ' '

/-- Whether a text keeps its characters and line ends only with escapes. -/
def needsEscapes (cs : List Char) : Bool :=
  cs.any (!isPrintable ·) || hasPair isSpace isBreak cs

def plainAllowed (cs : List Char) : Bool :=
  !startsAsMark cs && !hasMark cs && !needsEscapes cs && !cs.any isBreak &&
    !cs.head?.any isSpace && !cs.getLast?.any isSpace

def singleAllowed (cs : List Char) : Bool :=
  !needsEscapes cs && !hasPair isBreak isSpace cs

def blockAllowed (cs : List Char) : Bool :=
  !cs.isEmpty && !needsEscapes cs && !cs.getLast?.any isSpace

/-- Whether a plain text would stand for something else. -/
def readsOtherwise (s : String) : Bool :=
  Meaning.ofPlain s ≠ .text || Meaning.isPadded s.toList

/-- The style of a text; keys stand on one line. -/
def styleOf (isKey : Bool) (s : String) : Style :=
  let cs := s.toList
  let quoted := if singleAllowed cs then .singleQuoted else .doubleQuoted
  if cs.contains '\n' then if blockAllowed cs && !isKey then .literal else .doubleQuoted
  else if isKey && cs.any isBreak then .doubleQuoted
  else if readsOtherwise s || !plainAllowed cs then quoted
  else .plain

/-! ### Texts -/

def spaces (n : Nat) : String :=
  String.ofList (List.replicate n ' ')

/-- Starts a line, unless one has just been started. -/
def startLine (indent : Nat) (out : String) : String :=
  let out := if out.isEmpty || isBreak out.back then out else out.push '\n'
  out ++ spaces indent

/-- Writes characters; after a line break the margin comes before the next one. -/
def writeLines (indent : Nat) (encode : Char → String) (afterBreak : Bool) :
    List Char → String → String × Bool
  | [], out => (out, afterBreak)
  | c :: cs, out =>
    if isBreak c then writeLines indent encode true cs (out.push c)
    else
      let out := if afterBreak then out ++ spaces indent else out
      writeLines indent encode false cs (out ++ encode c)

def hexUpper (width n : Nat) : String :=
  let digits := (Nat.toDigits 16 n).map Char.toUpper
  String.ofList (List.replicate (width - digits.length) '0' ++ digits)

/-- A character between double quotes. -/
def encodeDouble (c : Char) : String :=
  match c with
  | '\x00' => "\\0"
  | '\x07' => "\\a"
  | '\x08' => "\\b"
  | '\t' => "\\t"
  | '\n' => "\\n"
  | '\x0b' => "\\v"
  | '\x0c' => "\\f"
  | '\r' => "\\r"
  | '\x1b' => "\\e"
  | '"' => "\\\""
  | '\\' => "\\\\"
  | '\u0085' => "\\N"
  | '\u2028' => "\\L"
  | '\u2029' => "\\P"
  | c =>
    if isPrintable c then c.toString
    else if c.toNat < 0x100 then "\\x" ++ hexUpper 2 c.toNat
    else if c.toNat < 0x10000 then "\\u" ++ hexUpper 4 c.toNat
    else "\\U" ++ hexUpper 8 c.toNat

/-- The marks of a literal block: its indentation, if the text starts with white space, and
how it ends. -/
def blockMarks (cs : List Char) : String :=
  let indentation := if cs.head?.any (fun c => isSpace c || isBreak c) then "2" else ""
  let ending :=
    match cs.reverse with
    | c :: rest =>
      if !isBreak c then "-"
      else if rest.isEmpty || rest.head?.any isBreak then "+"
      else ""
    | [] => "-"
  indentation ++ ending

/-- Writes a text that stands in a collection at a column. -/
def writeText (indent : Nat) (isKey : Bool) (s : String) (out : String) : String :=
  let cs := s.toList
  match styleOf isKey s with
  | .singleQuoted =>
    let encode (c : Char) : String := if c = '\x27' then "''" else c.toString
    let (out, afterBreak) := writeLines (indent + 2) encode false cs (out.push '\x27')
    (if afterBreak then out ++ spaces (indent + 2) else out).push '\x27'
  | .doubleQuoted => out ++ "\"" ++ String.join (cs.map encodeDouble) ++ "\""
  | .literal | .folded =>
    (writeLines (indent + 2) Char.toString true cs (out ++ "|" ++ blockMarks cs ++ "\n")).1
  | .plain => out ++ s

/-! ### Values -/

/-- The length in bytes beyond which a key is announced by a mark of its own. -/
def maxSimpleKey : Nat := 128

/-- Where a value stands. -/
inductive Place where
  /-- It is the whole document. -/
  | top
  /-- After a dash or the mark of a long key. -/
  | afterMark
  /-- After a key and its colon. -/
  | afterKey
  deriving DecidableEq

/-- The text between a place and a value on the same line. -/
def Place.blank : Place → String
  | afterKey => " "
  | top | afterMark => ""

/-- Writes a key and its colon. -/
def writeKey (indent : Nat) (key : String) (out : String) : String × Place :=
  if maxSimpleKey < key.utf8ByteSize then
    (startLine indent (writeText indent false key (out ++ "? ")) ++ ": ", .afterMark)
  else (writeText indent true key out ++ ":", .afterKey)

mutual

/-- Writes a value that stands in a collection at a column. -/
def writeValue (place : Place) (indent : Nat) : Json → String → String
  | .null, out => out ++ place.blank ++ "null"
  | .bool b, out => out ++ place.blank ++ if b then "true" else "false"
  | .int n, out => out ++ place.blank ++ toString n
  | .float x, out => out ++ place.blank ++ Decimal.text x
  | .str s, out => writeText indent false s (out ++ place.blank)
  | .arr items, out =>
    if items.isEmpty then out ++ place.blank ++ "[]"
    else writeItems (if place = .afterMark then indent + 2 else indent) (place ≠ .afterKey) items out
  | .obj entries, out =>
    if entries.isEmpty then out ++ place.blank ++ "\x7b\x7d"
    else writeEntries (if place = .top then indent else indent + 2) (place ≠ .afterKey) entries out

/-- Writes items, each on a line of its own; that of the first may be started already. -/
def writeItems (indent : Nat) (started : Bool) : List Json → String → String
  | [], out => out
  | j :: js, out =>
    let out := if started then out else startLine indent out
    writeItems indent false js (writeValue .afterMark indent j (out ++ "- "))

/-- Writes entries, each on a line of its own; that of the first may be started already. -/
def writeEntries (indent : Nat) (started : Bool) : List (String × Json) → String → String
  | [], out => out
  | (k, j) :: es, out =>
    let out := if started then out else startLine indent out
    let (out, place) := writeKey indent k out
    writeEntries indent false es (writeValue place indent j out)

end

/-- The text of a value as a document. -/
def write (j : Json) : String :=
  startLine 0 (writeValue .top 0 j "")

end Moore.Yaml
