import Moore.Yaml.Text

/-
# YAML tokens

A text is a sequence of scalars, of marks, and of collections that are opened and closed by
brackets or by indentation.  Whether a scalar is the key of a mapping shows only at the
colon after it, so the position of a possible key is remembered and the tokens that open
the mapping and announce the key are put before it afterwards.
-/

namespace Moore.Yaml

inductive Token where
  /-- The version of a text. -/
  | version (major minor : Nat)
  /-- What a tag handle stands for. -/
  | handle (handle stem : String)
  | documentStart
  | documentEnd
  | blockSequence
  | blockMapping
  | blockEnd
  | flowSequence
  | flowSequenceEnd
  | flowMapping
  | flowMappingEnd
  | blockEntry
  | flowEntry
  | key
  | value
  | alias (name : String)
  | anchor (name : String)
  | tag (handle suffix : String)
  | scalar (style : Style) (text : String)
  deriving DecidableEq, Inhabited

/-! ### Directives, anchors and tags -/

def isUriChar (c : Char) : Bool :=
  isNameChar c || [';', '/', '?', ':', '@', '&', '=', '+', '$', '.', '%', '!', '~', '*', '\x27',
    '(', ')'].contains c

/-- The bytes that start an encoded character, with the number of bytes it takes and the
value they carry. -/
def leadByte? (b : Nat) : Option (Nat × Nat) :=
  if b < 0x80 then some (1, b)
  else if 0xC0 ≤ b && b < 0xE0 then some (2, b % 0x20)
  else if 0xE0 ≤ b && b < 0xF0 then some (3, b % 0x10)
  else if 0xF0 ≤ b && b < 0xF8 then some (4, b % 0x08)
  else none

/-- Reads one byte written as a percent sign and two digits. -/
def percentByte? : List Char → Option (Nat × List Char)
  | '%' :: a :: b :: cs => do
    let x ← hexDigit? a
    let y ← hexDigit? b
    return (16 * x + y, cs)
  | _ => none

/-- Reads the remaining bytes of an encoded character. -/
def percentTail? : (count value : Nat) → List Char → Option (Nat × List Char)
  | 0, value, cs => some (value, cs)
  | count + 1, value, cs => do
    let (b, cs) ← percentByte? cs
    if 0x80 ≤ b && b < 0xC0 then percentTail? count (64 * value + b % 64) cs else none

/-- Reads a character written as percent-encoded bytes. -/
def percentChar? (cs : List Char) : Option (Char × List Char) := do
  let (b, cs) ← percentByte? cs
  let (width, value) ← leadByte? b
  let (value, cs) ← percentTail? (width - 1) value cs
  return (← charOf? value, cs)

/-- Reads the characters of a tag; those of `extra` are among them too. -/
def uriChars (extra : List Char) : (bound : Nat) → List Char → Option (List Char × List Char)
  | 0, cs => some ([], cs)
  | _, [] => some ([], [])
  | bound + 1, c :: cs =>
    if c = '%' then do
      let (ch, rest) ← percentChar? (c :: cs)
      let (after, rest) ← uriChars extra bound rest
      return (ch :: after, rest)
    else if isUriChar c || extra.contains c then
      (uriChars extra bound cs).map fun r => (c :: r.1, r.2)
    else some ([], c :: cs)

/-- The cursor at a rest of its line. -/
def Cursor.moveTo (c : Cursor) (rest : List Char) : Cursor :=
  c.advance (c.rest.length - rest.length)

def readUri (extra : List Char) (c : Cursor) : Option (List Char × Cursor) :=
  (uriChars extra (c.rest.length + 1) c.rest).map fun r => (r.1, c.moveTo r.2)

/-- The punctuation that belongs to a tag only where it cannot be a mark. -/
def flowPunctuation : List Char := [',', '[', ']']

/-- Reads an exclamation mark, name characters and perhaps a second exclamation mark. -/
def readHandle (c : Cursor) : Option (List Char × Cursor) :=
  if c.startsWith '!' then
    let (name, c) := (c.advance 1).takeWhile isNameChar
    if c.startsWith '!' then some ('!' :: name ++ ['!'], c.advance 1) else some ('!' :: name, c)
  else none

/-- Reads a tag: its handle and suffix.  A tag between angle brackets has no handle. -/
def readTag (c : Cursor) : Option (Token × Cursor) := do
  let (token, c) ←
    match c.rest with
    | '!' :: '<' :: _ => do
      let (suffix, c) ← readUri flowPunctuation (c.advance 2)
      if suffix.isEmpty || !c.startsWith '>' then none
      else pure (Token.tag "" (String.ofList suffix), c.advance 1)
    | _ => do
      let (handle, c) ← readHandle c
      let (suffix, c) ← readUri [] c
      if 1 < handle.length && handle.getLast? = some '!' then
        if suffix.isEmpty then none
        else pure (Token.tag (String.ofList handle) (String.ofList suffix), c)
      else
        let suffix := handle.drop 1 ++ suffix
        if suffix.isEmpty then pure (Token.tag "" "!", c)
        else pure (Token.tag "!" (String.ofList suffix), c)
  return (token, c)

/-- Reads the name of an anchor or alias, after its indicator. -/
def readAnchor (c : Cursor) : Option (String × Cursor) :=
  let (name, c) := c.takeWhile isNameChar
  let closed := endsWord c.rest ||
    c.rest.head?.any ['?', ':', ',', ']', '\x7d', '%', '@', '\x60'].contains
  if name.isEmpty || !closed then none else some (String.ofList name, c)

/-- Reads a number of at most nine digits. -/
def readVersionNumber (c : Cursor) : Option (Nat × Cursor) :=
  let (digits, c) := c.takeWhile Char.isDigit
  if digits.isEmpty || 9 < digits.length then none
  else some (digits.foldl (fun n d => 10 * n + (d.toNat - 48)) 0, c)

/-- Reads a directive after its indicator, up to the end of its line. -/
def readDirective (c : Cursor) : Option (Token × Cursor) := do
  let (name, c) := c.takeWhile isNameChar
  if name.isEmpty || !endsWord c.rest then none
  else
    let c := c.skipWhile isBlank
    let (token, c) ←
      if name = ['Y', 'A', 'M', 'L'] then do
        let (major, c) ← readVersionNumber c
        if !c.startsWith '.' then none
        else
          let (minor, c) ← readVersionNumber (c.advance 1)
          pure (Token.version major minor, c)
      else if name = ['T', 'A', 'G'] then do
        let (handle, c) ← readHandle c
        if handle ≠ ['!'] && handle.getLast? ≠ some '!' then none
        else if !c.rest.head?.any isBlank then none
        else
          let (stem, c) ← readUri flowPunctuation (c.skipWhile isBlank)
          if stem.isEmpty || !endsWord c.rest then none
          else pure (Token.handle (String.ofList handle) (String.ofList stem), c)
      else none
    let c := c.skipWhile isBlank
    let c := if c.startsWith '#' then c.skipWhile (!isBreak ·) else c
    if c.rest.isEmpty then return (token, c)
    else
      let (_, c) ← c.readBreak?
      return (token, c)

/-! ### Scanning -/

/-- A place where a simple key may start. -/
structure KeyPlace where
  /-- The number of tokens before it. -/
  tokens : Nat
  cursor : Cursor
  /-- A key has to stand here. -/
  required : Bool

/-- The state of scanning a text. -/
structure Scan where
  cursor : Cursor
  tokens : Array Token := #[]
  /-- The column of the innermost block collection. -/
  indent : Int := -1
  /-- The columns of the block collections around it. -/
  outer : List Int := []
  /-- A simple key may start at the cursor. -/
  keyAllowed : Bool := true
  /-- The possible key outside all brackets or in the innermost ones. -/
  place : Option KeyPlace := none
  /-- The possible keys around each pair of open brackets, the innermost first. -/
  outerPlaces : List (Option KeyPlace) := []

namespace Scan

def inFlow (s : Scan) : Bool :=
  !s.outerPlaces.isEmpty

def emit (s : Scan) (t : Token) : Scan :=
  { s with tokens := s.tokens.push t }

/-- The greatest length of a simple key. -/
def maxKeyLength : Nat := 1024

/-- A possible key that has turned out none, as it is too long or not on one line.  Where a
key has to stand that is a fault. -/
def dropStale (now : Cursor) : Option KeyPlace → Option (Option KeyPlace)
  | none => some none
  | some p =>
    if p.cursor.line < now.line || p.cursor.index + maxKeyLength < now.index then
      if p.required then none else some none
    else some (some p)

def dropStaleKeys (s : Scan) : Option Scan := do
  let place ← dropStale s.cursor s.place
  let outerPlaces ← s.outerPlaces.mapM (dropStale s.cursor)
  return { s with place, outerPlaces }

/-- Gives up the possible key. -/
def dropKey (s : Scan) : Option Scan :=
  match s.place with
  | some p => if p.required then none else some { s with place := none }
  | none => some s

/-- Remembers the cursor as the place of a possible key. -/
def markKey (s : Scan) : Option Scan := do
  if !s.keyAllowed then return s
  let required := !s.inFlow && s.indent = s.cursor.column
  let s ← s.dropKey
  return { s with place := some ⟨s.tokens.size, s.cursor, required⟩ }

/-- Closes the block collections that are indented more than a column. -/
def closeTo (column : Int) (s : Scan) : Scan :=
  if s.inFlow then s else go s s.outer
where
  go (s : Scan) : List Int → Scan
    | [] => s
    | next :: outer =>
      if column < s.indent then go { s.emit .blockEnd with indent := next, outer } outer else s

/-- Opens a block collection at a column, unless one is open there: the token goes to the
given place among the tokens. -/
def openAt (column : Int) (place : Nat) (token : Token) (s : Scan) : Scan :=
  if s.inFlow || column ≤ s.indent then s
  else { s with
    tokens := s.tokens.insertIdxIfInBounds place token
    indent := column
    outer := s.indent :: s.outer }

/-- Opens a block collection at the cursor. -/
def openHere (token : Token) (s : Scan) : Scan :=
  s.openAt s.cursor.column s.tokens.size token

/-- Passes comments, breaks and blanks.  A tab may not stand where a key may start. -/
def skipSpace : (bound : Nat) → Scan → Scan
  | 0, s => s
  | bound + 1, s =>
    let tabs := s.inFlow || !s.keyAllowed
    let c := s.cursor
    let c := if c.index = 0 && c.startsWith byteOrderMark then c.advance 1 else c
    let c := c.skipWhile fun ch => ch = ' ' || (tabs && ch = '\t')
    let c := if c.startsWith '#' then c.skipWhile (!isBreak ·) else c
    match c.readBreak? with
    | some (_, c) =>
      skipSpace bound { s with cursor := c, keyAllowed := s.keyAllowed || !s.inFlow }
    | none => { s with cursor := c }

/-- Puts a token of `n` characters. -/
def mark (n : Nat) (token : Token) (keyAllowed : Bool) (s : Scan) : Scan :=
  { s.emit token with cursor := s.cursor.advance n, keyAllowed }

/-- A directive or the mark of a document, which ends all block collections. -/
def topLevel (s : Scan) : Option Scan :=
  (s.closeTo (-1)).dropKey.map fun s => { s with keyAllowed := false }

def flowStart (token : Token) (s : Scan) : Option Scan := do
  let s ← s.markKey
  return mark 1 token true { s with place := none, outerPlaces := s.place :: s.outerPlaces }

def flowEnd (token : Token) (s : Scan) : Option Scan := do
  let s ← s.dropKey
  let s := match s.outerPlaces with
    | place :: outerPlaces => { s with place, outerPlaces }
    | [] => s
  return s.mark 1 token false

def entry (s : Scan) : Option Scan := do
  if !s.inFlow && !s.keyAllowed then none
  else return (← (s.openHere .blockSequence).dropKey).mark 1 .blockEntry true

def explicitKey (s : Scan) : Option Scan := do
  if !s.inFlow && !s.keyAllowed then none
  else return (← (s.openHere .blockMapping).dropKey).mark 1 .key (!s.inFlow)

/-- A colon: what stands at the possible key becomes a key. -/
def value (s : Scan) : Option Scan :=
  match s.place with
  | some p =>
    let s := { s with tokens := s.tokens.insertIdxIfInBounds p.tokens .key, place := none }
    some ((s.openAt p.cursor.column p.tokens .blockMapping).mark 1 .value false)
  | none =>
    if !s.inFlow && !s.keyAllowed then none
    else some ((s.openHere .blockMapping).mark 1 .value (!s.inFlow))

/-- An anchor or alias. -/
def reference (token : String → Token) (s : Scan) : Option Scan := do
  let s ← s.markKey
  let (name, c) ← readAnchor (s.cursor.advance 1)
  return { s.emit (token name) with cursor := c, keyAllowed := false }

def tag (s : Scan) : Option Scan := do
  let s ← s.markKey
  let (token, c) ← readTag s.cursor
  if endsWord c.rest || (s.inFlow && c.startsWith ',') then
    return { s.emit token with cursor := c, keyAllowed := false }
  else none

def block (folded : Bool) (s : Scan) : Option Scan := do
  let s ← s.dropKey
  let (text, c) ← readBlock folded s.indent (s.cursor.advance 1)
  let token := Token.scalar (if folded then .folded else .literal) (String.ofList text)
  return { s.emit token with cursor := c, keyAllowed := true }

def quoted (single : Bool) (s : Scan) : Option Scan := do
  let s ← s.markKey
  let c := s.cursor.advance 1
  let (text, c) ← readQuoted single (c.rest.length + 1) c
  let token := Token.scalar (if single then .singleQuoted else .doubleQuoted) (String.ofList text)
  return { s.emit token with cursor := c, keyAllowed := false }

def plain (s : Scan) : Option Scan := do
  let s ← s.markKey
  let (text, c, newLine) ←
    readPlain s.inFlow (s.indent + 1) (s.cursor.rest.length + 1) (.inline []) s.cursor
  return { s.emit (.scalar .plain (String.ofList text)) with cursor := c, keyAllowed := newLine }

/-- The characters that no plain scalar starts with, the hyphen, the question mark and the
colon apart. -/
def isIndicator (c : Char) : Bool :=
  [',', '[', ']', '\x7b', '\x7d', '#', '&', '*', '!', '|', '>', '\x27', '"', '%', '@',
    '\x60'].contains c

/-- Reads the token at the cursor, which is not at the end. -/
def token (s : Scan) (c : Char) (rest : List Char) : Option Scan :=
  let wordEnds := endsWord rest
  if s.cursor.column = 0 && c = '%' then do
    let s ← s.topLevel
    let (token, c) ← readDirective (s.cursor.advance 1)
    return { s.emit token with cursor := c }
  else if s.cursor.atDocumentMark then do
    let s ← s.topLevel
    return s.mark 3 (if c = '-' then .documentStart else .documentEnd) false
  else if c = '[' then s.flowStart .flowSequence
  else if c = '\x7b' then s.flowStart .flowMapping
  else if c = ']' then s.flowEnd .flowSequenceEnd
  else if c = '\x7d' then s.flowEnd .flowMappingEnd
  else if c = ',' then s.dropKey.map (·.mark 1 .flowEntry true)
  else if c = '-' && wordEnds then s.entry
  else if c = '?' && (s.inFlow || wordEnds) then s.explicitKey
  else if c = ':' && (s.inFlow || wordEnds) then s.value
  else if c = '*' then s.reference .alias
  else if c = '&' then s.reference .anchor
  else if c = '!' then s.tag
  else if c = '|' && !s.inFlow then s.block false
  else if c = '>' && !s.inFlow then s.block true
  else if c = '\x27' then s.quoted true
  else if c = '"' then s.quoted false
  else if isBlankOrBreak c || isIndicator c then none
  else s.plain

/-- Scans to the end of the text. -/
def run : (bound : Nat) → Scan → Option (List Token)
  | 0, _ => none
  | bound + 1, s => do
    let s ← (s.skipSpace (s.cursor.rest.length + 1)).dropStaleKeys
    match s.cursor.rest with
    | [] => return (← s.topLevel).tokens.toList
    | c :: rest => run bound (← (s.closeTo s.cursor.column).token c rest)

end Scan

/-- The tokens of a text, if it has only allowed characters and no token is malformed. -/
def Token.ofText? (text : String) : Option (List Token) :=
  let chars := text.toList
  let chars := if chars.head? = some byteOrderMark then chars.drop 1 else chars
  if chars.all isAllowed then Scan.run (chars.length + 1) { cursor := { rest := chars } } else none

end Moore.Yaml
