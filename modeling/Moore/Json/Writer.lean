import Moore.Json.Basic
import Moore.Decimal.Shortest

/-
# Writing JSON

The compact form has no white space; the indented form puts every item on a line of its
own, two columns further in than its container, and keeps empty containers on one line.
Texts escape the quote, the backslash and the control characters below the space.
-/

namespace Moore.Json

/-- A digit of a hexadecimal number. -/
def hexDigit (n : Nat) : Char :=
  Char.ofNat (if n < 10 then 48 + n else 87 + n)

/-- A character inside a quoted text. -/
def escape (c : Char) : List Char :=
  if c = '"' then ['\\', '"']
  else if c = '\\' then ['\\', '\\']
  else if c = '\n' then ['\\', 'n']
  else if c = '\r' then ['\\', 'r']
  else if c = '\t' then ['\\', 't']
  else if c = '\x08' then ['\\', 'b']
  else if c = '\x0c' then ['\\', 'f']
  else if c.toNat < 32 then
    ['\\', 'u', '0', '0', hexDigit (c.toNat / 16), hexDigit (c.toNat % 16)]
  else [c]

def quoted (s : String) : String :=
  String.ofList ('"' :: s.toList.flatMap escape ++ ['"'])

mutual

/-- The compact text. -/
def compact : Json → String
  | .null => "null"
  | .bool b => if b then "true" else "false"
  | .int n => toString n
  | .float x => Decimal.text x
  | .str s => quoted s
  | .arr items => "[" ++ ",".intercalate (compactItems items) ++ "]"
  | .obj entries => "\x7b" ++ ",".intercalate (compactEntries entries) ++ "\x7d"

def compactItems : List Json → List String
  | [] => []
  | j :: js => j.compact :: compactItems js

def compactEntries : List (String × Json) → List String
  | [] => []
  | (k, j) :: es => (quoted k ++ ":" ++ j.compact) :: compactEntries es

end

/-- A line break and the margin of a depth. -/
def margin (depth : Nat) : String :=
  "\n" ++ String.ofList (List.replicate (2 * depth) ' ')

/-- A container with its parts on lines of their own. -/
def block (opening closing : String) (depth : Nat) (parts : List String) : String :=
  if parts.isEmpty then opening ++ closing
  else
    opening ++ margin (depth + 1) ++ ("," ++ margin (depth + 1)).intercalate parts ++
      margin depth ++ closing

mutual

/-- The indented text of a value that stands at a depth. -/
def indented (depth : Nat) : Json → String
  | .null => "null"
  | .bool b => if b then "true" else "false"
  | .int n => toString n
  | .float x => Decimal.text x
  | .str s => quoted s
  | .arr items => block "[" "]" depth (indentedItems (depth + 1) items)
  | .obj entries => block "\x7b" "\x7d" depth (indentedEntries (depth + 1) entries)

def indentedItems (depth : Nat) : List Json → List String
  | [] => []
  | j :: js => j.indented depth :: indentedItems depth js

def indentedEntries (depth : Nat) : List (String × Json) → List String
  | [] => []
  | (k, j) :: es => (quoted k ++ ": " ++ j.indented depth) :: indentedEntries depth es

end

/-- The indented text. -/
def pretty (j : Json) : String :=
  j.indented 0

end Moore.Json
