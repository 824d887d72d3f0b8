import Moore.Json.Basic
import Moore.Decimal.Reading

/-
# JSON texts as read

A text is read into a tree also when it is no JSON text: the tree then holds what stands
before the fault, and `damaged` where reading stopped.  So whoever takes the tree apart in
the order of the text meets a value of the wrong shape before a later fault, and the fault
before what would follow it.  Some texts are faulty only to those who look at them: a
number beyond binary64 and a text with half a surrogate pair do no harm in a value that is
skipped.
-/

namespace Moore.Json

/-- Why a text is not JSON. -/
inductive Fault where
  /-- The text ends too early. -/
  | early
  /-- A character is out of place. -/
  | malformed
  deriving DecidableEq, Repr

/-- A JSON text as far as it can be read. -/
inductive Source where
  | null
  | bool (value : Bool)
  | int (value : Int)
  | float (value : Float)
  | str (value : String)
  | arr (items : List Source)
  | obj (entries : List (Source × Source))
  /-- What cannot be read, with the fault for those who look at it and for those who skip
  it. -/
  | damaged (seen : Fault) (skipped : Option Fault)
  deriving Inhabited

namespace Source

/-- The place where reading stopped. -/
def stop (f : Fault) : Source :=
  .damaged f (some f)

/-- What a part of the text holds, and the text after it unless reading stopped there. -/
abbrev Part (α : Type) := α × Option (List Char)

/-! ### Scalars -/

def isBlank (c : Char) : Bool :=
  c = ' ' || c = '\n' || c = '\t' || c = '\r'

def skipBlank (cs : List Char) : List Char :=
  cs.dropWhile isBlank

/-- The rest of a text after a word. -/
def readWord (value : Source) : (word : List Char) → List Char → Part Source
  | [], cs => (value, some cs)
  | _ :: _, [] => (stop .early, none)
  | w :: ws, c :: cs => if w = c then readWord value ws cs else (stop .malformed, none)

def digitValue (c : Char) : Nat :=
  c.toNat - '0'.toNat

/-- The digits at the start of a text, and the rest. -/
def takeDigits (cs : List Char) : List Nat × List Char :=
  ((cs.takeWhile Char.isDigit).map digitValue, cs.dropWhile Char.isDigit)

/-- The fault of a text that does not go on with a digit. -/
def faultAt (cs : List Char) : Fault :=
  if cs.isEmpty then .early else .malformed

/-- The value of a numeral with neither fraction nor exponent: an integer if it fits 64
bits, where a negative zero does not count as one. -/
def wholeValue (n : Decimal.Numeral) : Option Source :=
  let value := Decimal.natOf n.whole
  if n.negative then
    if value ≠ 0 && value ≤ Decimal.pow2 63 then some (.int (-value)) else n.toFloat?.map .float
  else if value < Decimal.pow2 64 then some (.int value)
  else n.toFloat?.map .float

/-- A number that is too large can be skipped, not used. -/
def number (value : Option Source) : Source :=
  value.getD (.damaged .malformed none)

/-- Reads the exponent of a numeral, after its mark. -/
def readExponent (n : Decimal.Numeral) (cs : List Char) : Part Source :=
  let (negative, cs) := match cs with
    | '+' :: cs => (false, cs)
    | '-' :: cs => (true, cs)
    | cs => (false, cs)
  let (digits, rest) := takeDigits cs
  if digits.isEmpty then (stop (faultAt rest), none)
  else
    let n := { n with exponentNegative := negative, exponent := digits }
    (number (n.toFloat?.map .float), some rest)

def isExponentMark (c : Char) : Bool :=
  c = 'e' || c = 'E'

/-- Reads the fraction of a numeral, after the point. -/
def readFraction (n : Decimal.Numeral) (cs : List Char) : Part Source :=
  let (digits, rest) := takeDigits cs
  if digits.isEmpty then (stop (faultAt rest), none)
  else
    let n := { n with fraction := digits }
    match rest with
    | c :: cs =>
      if isExponentMark c then readExponent n cs
      else (number (n.toFloat?.map .float), some rest)
    | [] => (number (n.toFloat?.map .float), some rest)

/-- Reads a numeral after its sign. -/
def readNumber (negative : Bool) (cs : List Char) : Part Source :=
  let (digits, rest) := takeDigits cs
  match digits with
  | [] => (stop (faultAt rest), none)
  | 0 :: _ :: _ => (stop .malformed, none)
  | digits =>
    let n : Decimal.Numeral := { negative, whole := digits }
    match rest with
    | '.' :: cs => readFraction n cs
    | c :: cs =>
      if isExponentMark c then readExponent n cs else (number (wholeValue n), some rest)
    | [] => (number (wholeValue n), some rest)

def hexValue? (c : Char) : Option Nat :=
  if c.isDigit then some (c.toNat - 48)
  else if 'a' ≤ c && c ≤ 'f' then some (c.toNat - 87)
  else if 'A' ≤ c && c ≤ 'F' then some (c.toNat - 55)
  else none

/-- The number of four hexadecimal digits. -/
def hex4? (a b c d : Char) : Option Nat := do
  return (← hexValue? a) * 4096 + (← hexValue? b) * 256 + (← hexValue? c) * 16 + (← hexValue? d)

/-- The character of an escape of one letter. -/
def letterEscape? : Char → Option Char
  | '"' => some '"'
  | '\\' => some '\\'
  | '/' => some '/'
  | 'b' => some '\x08'
  | 'f' => some '\x0c'
  | 'n' => some '\n'
  | 'r' => some '\r'
  | 't' => some '\t'
  | _ => none

/-- What a quoted text holds so far: its characters, last first, the first half of a
surrogate pair if that came last, and whether some half stands alone. -/
structure Quoted where
  chars : List Char := []
  high : Option Nat := none
  lone : Bool := false

namespace Quoted

/-- Adds a character. -/
def push (q : Quoted) (c : Char) : Quoted :=
  { chars := c :: q.chars, high := none, lone := q.lone || q.high.isSome }

/-- Adds a 16-bit unit. -/
def pushUnit (q : Quoted) (n : Nat) : Quoted :=
  match q.high with
  | some h =>
    if 0xDC00 ≤ n && n < 0xE000 then
      { q with
        chars := Char.ofNat (0x10000 + (h - 0xD800) * 0x400 + (n - 0xDC00)) :: q.chars
        high := none }
    else { q with high := none, lone := true }
  | none =>
    if 0xD800 ≤ n && n < 0xDC00 then { q with high := some n }
    else if 0xDC00 ≤ n && n < 0xE000 then { q with lone := true }
    else q.push (Char.ofNat n)

/-- The finished text. -/
def finish (q : Quoted) : Source :=
  if q.lone || q.high.isSome then .damaged .malformed none
  else .str (String.ofList q.chars.reverse)

/-- The text when it stops with a fault; half a pair that stands alone before is met
first. -/
def stopped (q : Quoted) (f : Fault) : Source :=
  if q.lone then .damaged .malformed (some f) else stop f

end Quoted

/-- Reads a text after its opening quote. -/
def readQuoted (q : Quoted) : List Char → Part Source
  | [] => (q.stopped .early, none)
  | '"' :: cs => (q.finish, some cs)
  | '\\' :: 'u' :: a :: b :: c :: d :: cs =>
    match hex4? a b c d with
    | some n => readQuoted (q.pushUnit n) cs
    | none => (q.stopped .malformed, none)
  | ['\\'] => (q.stopped .early, none)
  | '\\' :: 'u' :: _ => (q.stopped .early, none)
  | '\\' :: c :: cs =>
    match letterEscape? c with
    | some c => readQuoted (q.push c) cs
    | none => (q.stopped .malformed, none)
  | c :: cs => if c.toNat < 32 then (q.stopped .malformed, none) else readQuoted (q.push c) cs

/-! ### Containers -/

mutual

/-- Reads a value; `bound` exceeds the length of the text. -/
def readValue : (bound : Nat) → List Char → Part Source
  | 0, _ => (stop .early, none)
  | bound + 1, cs =>
    match skipBlank cs with
    | [] => (stop .early, none)
    | '"' :: cs => readQuoted {} cs
    | '[' :: cs =>
      match skipBlank cs with
      | ']' :: cs => (.arr [], some cs)
      | [] => (.arr [stop .early], none)
      | cs =>
        let (items, rest) := readItems bound cs
        (.arr items, rest)
    | '\x7b' :: cs =>
      match skipBlank cs with
      | '\x7d' :: cs => (.obj [], some cs)
      | [] => (.obj [(stop .early, .null)], none)
      | cs =>
        let (entries, rest) := readEntries bound cs
        (.obj entries, rest)
    | 't' :: cs => readWord (.bool true) ['r', 'u', 'e'] cs
    | 'f' :: cs => readWord (.bool false) ['a', 'l', 's', 'e'] cs
    | 'n' :: cs => readWord .null ['u', 'l', 'l'] cs
    | '-' :: cs => readNumber true cs
    | c :: cs => if c.isDigit then readNumber false (c :: cs) else (stop .malformed, none)

/-- Reads one or more items and the bracket after them. -/
def readItems : (bound : Nat) → List Char → Part (List Source)
  | 0, _ => ([stop .early], none)
  | bound + 1, cs =>
    match readValue bound cs with
    | (item, none) => ([item], none)
    | (item, some cs) =>
      match skipBlank cs with
      | [] => ([item, stop .early], none)
      | ']' :: cs => ([item], some cs)
      | ',' :: cs =>
        match skipBlank cs with
        | ']' :: _ => ([item, stop .malformed], none)
        | cs =>
          let (items, rest) := readItems bound cs
          (item :: items, rest)
      | _ => ([item, stop .malformed], none)

/-- Reads one or more entries and the brace after them. -/
def readEntries : (bound : Nat) → List Char → Part (List (Source × Source))
  | 0, _ => ([(stop .early, .null)], none)
  | bound + 1, cs =>
    match cs with
    | [] => ([(stop .early, .null)], none)
    | '"' :: cs =>
      match readQuoted {} cs with
      | (key, none) => ([(key, .null)], none)
      | (key, some cs) =>
        match skipBlank cs with
        | [] => ([(key, stop .early)], none)
        | ':' :: cs =>
          match readValue bound cs with
          | (value, none) => ([(key, value)], none)
          | (value, some cs) =>
            match skipBlank cs with
            | [] => ([(key, value), (stop .early, .null)], none)
            | '\x7d' :: cs => ([(key, value)], some cs)
            | ',' :: cs =>
              let (entries, rest) := readEntries bound (skipBlank cs)
              ((key, value) :: entries, rest)
            | _ => ([(key, value), (stop .malformed, .null)], none)
        | _ => ([(key, stop .malformed)], none)
    | _ => ([(stop .malformed, .null)], none)

end

/-- What a text holds, and whether something is left after it. -/
def ofText (text : String) : Source × Bool :=
  match readValue (text.length + 1) text.toList with
  | (source, none) => (source, false)
  | (source, some rest) => (source, !(skipBlank rest).isEmpty)

/-! ### Values -/

/-- Puts an entry at its place in the order of keys, over an entry of the same key. -/
def insertEntry (key : String) (value : Source) :
    List (Source × Source) → List (Source × Source)
  | [] => [(.str key, value)]
  | (.str k, v) :: es =>
    if key < k then (.str key, value) :: (.str k, v) :: es
    else if key = k then (.str key, value) :: es
    else (.str k, v) :: insertEntry key value es
  | e :: es => e :: insertEntry key value es

mutual

/-- A value as a source: the entries of an object in the order of their keys, the last of
equal ones. -/
def ofJson : Json → Source
  | .null => .null
  | .bool b => .bool b
  | .int n => .int n
  | .float x => .float x
  | .str s => .str s
  | .arr items => .arr (ofItems items)
  | .obj entries => .obj (ofEntries [] entries)

def ofItems : List Json → List Source
  | [] => []
  | j :: js => ofJson j :: ofItems js

/-- The entries, added to those of `acc` one after the other. -/
def ofEntries (acc : List (Source × Source)) : List (String × Json) → List (Source × Source)
  | [] => acc
  | (k, j) :: es => ofEntries (insertEntry k (ofJson j) acc) es

end

mutual

/-- The value of a source without damage. -/
def toJson? : Source → Option Json
  | .null => some .null
  | .bool b => some (.bool b)
  | .int n => some (.int n)
  | .float x => some (.float x)
  | .str s => some (.str s)
  | .arr items => (toItems? items).map .arr
  | .obj entries => (toEntries? entries).map .obj
  | .damaged .. => none

def toItems? : List Source → Option (List Json)
  | [] => some []
  | s :: ss => do return (← toJson? s) :: (← toItems? ss)

def toEntries? : List (Source × Source) → Option (List (String × Json))
  | [] => some []
  | (.str k, s) :: es => do return (k, ← toJson? s) :: (← toEntries? es)
  | _ => none

end

end Source

/-- Reads a JSON text. -/
def parse? (text : String) : Option Json :=
  match Source.ofText text with
  | (source, false) => source.toJson?
  | (_, true) => none

end Moore.Json
