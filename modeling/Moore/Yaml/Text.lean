import Moore.Yaml.Cursor

/-
# The texts of YAML scalars

A scalar is written plainly, between quotes, or as an indented block.  In plain and quoted
scalars a single line break is read as a space and of several the first is dropped.  In a
folded block that holds for the breaks between lines that start without a blank; a literal
block keeps every break.
-/

namespace Moore.Yaml

/-- How a scalar is written. -/
inductive Style where
  | plain
  | singleQuoted
  | doubleQuoted
  | literal
  | folded
  deriving DecidableEq, Repr

/-! ### Line folding -/

/-- What stands between two parts of a scalar that are separated by white space. -/
inductive Gap where
  /-- Blanks within a line. -/
  | inline (blanks : List Char)
  /-- A line break and the breaks after it; an escaped break leaves no text. -/
  | broken (first others : List Char)

namespace Gap

/-- The text that a gap stands for. -/
def text : Gap → List Char
  | inline blanks => blanks
  | broken ['\n'] [] => [' ']
  | broken ['\n'] others => others
  | broken first others => first ++ others

def isBroken : Gap → Bool
  | inline _ => false
  | broken .. => true

end Gap

/-- Reads the blanks and breaks between two parts.  `tabsFrom` is the first column at which
a tab may stand at the start of a line. -/
def readGap (tabsFrom : Int) : (bound : Nat) → Gap → Cursor → Option (Gap × Cursor)
  | 0, gap, c => some (gap, c)
  | bound + 1, gap, c =>
    match c.rest with
    | [] => some (gap, c)
    | ch :: _ =>
      if isBlank ch then
        match gap with
        | .inline blanks => readGap tabsFrom bound (.inline (blanks ++ [ch])) (c.advance 1)
        | gap =>
          if ch = '\t' && (c.column : Int) < tabsFrom then none
          else readGap tabsFrom bound gap (c.advance 1)
      else
        match c.readBreak? with
        | none => some (gap, c)
        | some (text, c) =>
          match gap with
          | .inline _ => readGap tabsFrom bound (.broken text []) c
          | .broken first others => readGap tabsFrom bound (.broken first (others ++ text)) c

/-! ### Plain scalars -/

/-- The characters that structure a collection in brackets. -/
def isFlowMark (c : Char) : Bool :=
  c = ',' || c = '[' || c = ']' || c = '\x7b' || c = '\x7d'

/-- The characters of a plain scalar up to the next blank or mark.  In brackets a colon
must not stand right before a mark. -/
def plainChunk (inFlow : Bool) : List Char → Option (List Char)
  | [] => some []
  | c :: cs =>
    if isBlankOrBreak c then some []
    else if inFlow && c = ':' && cs.head?.any (fun d => isFlowMark d || d = '?') then none
    else if (c = ':' && endsWord cs) || (inFlow && isFlowMark c) then some []
    else (plainChunk inFlow cs).map (c :: ·)

/-- Reads the parts of a plain scalar.  `gap` stands before the next part; `indent` is the
least column of its lines.  Returns the text, where it ends, and whether the text after it
starts on a new line. -/
def readPlain (inFlow : Bool) (indent : Int) :
    (bound : Nat) → Gap → Cursor → Option (List Char × Cursor × Bool)
  | 0, gap, c => some ([], c, gap.isBroken)
  | bound + 1, gap, c =>
    if c.atDocumentMark || c.startsWith '#' then some ([], c, gap.isBroken)
    else do
      let chunk ← plainChunk inFlow c.rest
      let c := c.advance chunk.length
      let before := if chunk.isEmpty then [] else gap.text ++ chunk
      let pending := if chunk.isEmpty then gap else .inline []
      if endsWord c.rest && !c.rest.isEmpty then
        let (next, c) ← readGap indent (c.rest.length + 1) pending c
        if !inFlow && (c.column : Int) < indent then return (before, c, next.isBroken)
        else
          let (after, last) ← readPlain inFlow indent bound next c
          return (before ++ after, last)
      else return (before, c, pending.isBroken)

/-! ### Quoted scalars -/

/-- A part of a quoted scalar. -/
structure QuotedPart where
  text : List Char
  /-- The number of characters it takes. -/
  length : Nat
  /-- It ends with an escaped line break. -/
  brokenOff : Bool := false

/-- Puts a character before a part. -/
def QuotedPart.push (c : Char) (length : Nat) (p : QuotedPart) : QuotedPart :=
  { p with text := c :: p.text, length := p.length + length }

/-- The part of a single-quoted scalar up to the next blank, break or closing quote. -/
def singlePart : List Char → QuotedPart
  | '\x27' :: '\x27' :: cs => (singlePart cs).push '\x27' 2
  | [] => ⟨[], 0, false⟩
  | c :: cs =>
    if c = '\x27' || isBlankOrBreak c then ⟨[], 0, false⟩ else (singlePart cs).push c 1

/-- The character of an escape of one letter. -/
def letterEscape? : Char → Option Char
  | '0' => some '\x00'
  | 'a' => some '\x07'
  | 'b' => some '\x08'
  | 't' | '\t' => some '\t'
  | 'n' => some '\n'
  | 'v' => some '\x0b'
  | 'f' => some '\x0c'
  | 'r' => some '\r'
  | 'e' => some '\x1b'
  | ' ' => some ' '
  | '"' => some '"'
  | '/' => some '/'
  | '\\' => some '\\'
  | 'N' => some '\u0085'
  | '_' => some '\u00a0'
  | 'L' => some '\u2028'
  | 'P' => some '\u2029'
  | _ => none

/-- The number of hexadecimal digits after the letter of an escape. -/
def escapeWidth? : Char → Option Nat
  | 'x' => some 2
  | 'u' => some 4
  | 'U' => some 8
  | _ => none

def hexDigit? (c : Char) : Option Nat :=
  if c.isDigit then some (c.toNat - 48)
  else if 'a' ≤ c && c ≤ 'f' then some (c.toNat - 87)
  else if 'A' ≤ c && c ≤ 'F' then some (c.toNat - 55)
  else none

/-- The number of some hexadecimal digits. -/
def hexNumber? (cs : List Char) : Option Nat :=
  cs.foldlM (fun n c => (hexDigit? c).map (16 * n + ·)) 0

/-- The character of a code point. -/
def charOf? (n : Nat) : Option Char :=
  if n < 0xD800 || (0xE000 ≤ n && n ≤ 0x10FFFF) then some (Char.ofNat n) else none

/-- The part of a double-quoted scalar up to the next blank, break or closing quote. -/
def doublePart : (bound : Nat) → List Char → Option QuotedPart
  | 0, _ => none
  | _, [] => some ⟨[], 0, false⟩
  | bound + 1, '\\' :: c :: cs =>
    if isBreak c then some ⟨[], 1, true⟩
    else
      match letterEscape? c, escapeWidth? c with
      | some ch, _ => (doublePart bound cs).map (·.push ch 2)
      | none, some width => do
        let digits := cs.take width
        if digits.length < width then none
        else
          let ch ← charOf? (← hexNumber? digits)
          return (← doublePart bound (cs.drop width)).push ch (width + 2)
      | none, none => none
  | bound + 1, c :: cs =>
    if c = '"' || isBlankOrBreak c then some ⟨[], 0, false⟩
    else if c = '\\' then none
    else (doublePart bound cs).map (·.push c 1)

/-- Reads a quoted scalar after its opening quote. -/
def readQuoted (single : Bool) : (bound : Nat) → Cursor → Option (List Char × Cursor)
  | 0, _ => none
  | bound + 1, c =>
    if c.atDocumentMark || c.rest.isEmpty then none
    else do
      let part ← if single then some (singlePart c.rest) else doublePart (c.rest.length + 1) c.rest
      let c := c.advance part.length
      if c.startsWith (if single then '\x27' else '"') then return (part.text, c.advance 1)
      else
        let (start, c) :=
          match part.brokenOff, c.readBreak? with
          | true, some (_, c) => (Gap.broken [] [], c)
          | _, _ => (Gap.inline [], c)
        let (gap, c) ← readGap (-1) (c.rest.length + 1) start c
        let (after, c) ← readQuoted single bound c
        return (part.text ++ gap.text ++ after, c)

/-! ### Block scalars -/

/-- What becomes of the breaks at the end of a block. -/
inductive Chomping where
  /-- All are dropped. -/
  | strip
  /-- One is kept. -/
  | clip
  /-- All are kept. -/
  | keep
  deriving DecidableEq

/-- The marks after the indicator of a block: how to chomp it, and its indentation if that
is given. -/
structure BlockHeader where
  chomping : Chomping := .clip
  indentation : Option Nat := none

def chompingMark? (c : Char) : Option Chomping :=
  if c = '+' then some .keep else if c = '-' then some .strip else none

/-- Reads the marks, in either order; an indentation of zero is refused. -/
def readHeader (c : Cursor) : Option (BlockHeader × Cursor) :=
  match c.rest with
  | a :: b :: _ =>
    match chompingMark? a with
    | some chomping =>
      if b = '0' then none
      else if b.isDigit then some (⟨chomping, some (b.toNat - 48)⟩, c.advance 2)
      else some (⟨chomping, none⟩, c.advance 1)
    | none =>
      if a = '0' then none
      else if a.isDigit then
        match chompingMark? b with
        | some chomping => some (⟨chomping, some (a.toNat - 48)⟩, c.advance 2)
        | none => some (⟨.clip, some (a.toNat - 48)⟩, c.advance 1)
      else some ({}, c)
  | [a] =>
    match chompingMark? a with
    | some chomping => some (⟨chomping, none⟩, c.advance 1)
    | none =>
      if a = '0' then none
      else if a.isDigit then some (⟨.clip, some (a.toNat - 48)⟩, c.advance 1)
      else some ({}, c)
  | [] => some ({}, c)

/-- Reads indentation and empty lines.  Spaces are passed up to the column `limit`, or all
of them; before it no tab may stand.  Returns the breaks and the greatest column reached. -/
def readMargin (limit : Option Nat) :
    (bound : Nat) → Nat → Cursor → Option (List Char × Nat × Cursor)
  | 0, deepest, c => some ([], deepest, c)
  | bound + 1, deepest, c => do
    let spaces := (c.rest.takeWhile (· = ' ')).length
    let c := c.advance (limit.elim spaces fun n => min spaces (n - c.column))
    let deepest := max deepest c.column
    if limit.all (c.column < ·) && c.startsWith '\t' then none
    else
      match c.readBreak? with
      | none => return ([], deepest, c)
      | some (text, c) =>
        let (breaks, last) ← readMargin limit bound deepest c
        return (text ++ breaks, last)

/-- The lines of a block read so far leave open what becomes of the breaks after them. -/
structure BlockEnd where
  /-- The break after the last line. -/
  lineBreak : List Char := []
  /-- The breaks of the empty lines after it. -/
  emptyLines : List Char := []
  /-- The last line starts with a blank. -/
  startsBlank : Bool := false

/-- The breaks between two lines. -/
def BlockEnd.joint (folded : Bool) (e : BlockEnd) (nextStartsBlank : Bool) : List Char :=
  if folded && e.lineBreak = ['\n'] && !e.startsBlank && !nextStartsBlank then
    if e.emptyLines.isEmpty then [' '] else e.emptyLines
  else e.lineBreak ++ e.emptyLines

/-- Reads the lines of a block that stand at the column `indent`. -/
def readLines (folded : Bool) (indent : Nat) :
    (bound : Nat) → BlockEnd → Cursor → Option (List Char × BlockEnd × Cursor)
  | 0, e, c => some ([], e, c)
  | bound + 1, e, c =>
    if c.column ≠ indent || c.rest.isEmpty then some ([], e, c)
    else do
      let startsBlank := c.rest.head?.any isBlank
      let (text, c) := c.takeWhile (!isBreak ·)
      let (lineBreak, c) := (c.readBreak?).getD ([], c)
      let (emptyLines, _, c) ← readMargin (some indent) (c.rest.length + 1) 0 c
      let (after, last) ← readLines folded indent bound { lineBreak, emptyLines, startsBlank } c
      return (e.joint folded startsBlank ++ text ++ after, last)

/-- Reads a block scalar after its indicator.  `parent` is the indentation around it, -1 at
the top. -/
def readBlock (folded : Bool) (parent : Int) (c : Cursor) : Option (List Char × Cursor) := do
  let (header, c) ← readHeader c
  let c := c.skipWhile isBlank
  let c := if c.startsWith '#' then c.skipWhile (!isBreak ·) else c
  let (_, c) ← if c.rest.isEmpty then some ([], c) else c.readBreak?
  let given := header.indentation.map fun n => (max parent 0).toNat + n
  let (breaks, deepest, c) ← readMargin given (c.rest.length + 1) 0 c
  let indent := given.getD (max deepest (max (parent + 1) 1).toNat)
  let (text, e, c) ← readLines folded indent (c.rest.length + 1) { emptyLines := breaks } c
  let ending :=
    match header.chomping with
    | .strip => []
    | .clip => e.lineBreak
    | .keep => e.lineBreak ++ e.emptyLines
  return (text ++ ending, c)

end Moore.Yaml
