import Moore.Decimal.Reading

/-
# What plain scalars stand for

The text of a plain scalar stands for null, a truth value, an integer, a number or, if it
has none of their forms, for itself.
-/

namespace Moore.Yaml

/-- What a scalar stands for. -/
inductive Meaning where
  | null
  | bool (value : Bool)
  | int (value : Int)
  | float
  | text
  deriving DecidableEq

namespace Meaning

def nullWords : List String := ["null", "Null", "NULL", "~"]

def isNull (s : String) : Bool :=
  nullWords.contains s

def bool? (s : String) : Option Bool :=
  if ["true", "True", "TRUE"].contains s then some true
  else if ["false", "False", "FALSE"].contains s then some false
  else none

/-! ### Integers -/

def digit? (base : Nat) (c : Char) : Option Nat :=
  let value :=
    if c.isDigit then c.toNat - 48
    else if 'a' ≤ c && c ≤ 'z' then c.toNat - 87
    else if 'A' ≤ c && c ≤ 'Z' then c.toNat - 55
    else base
  if value < base then some value else none

/-- The number of a text that has digits only, and one at least. -/
def number? (base : Nat) (cs : List Char) : Option Nat :=
  if cs.isEmpty then none
  else cs.foldlM (fun n c => (digit? base c).map (base * n + ·)) 0

/-- The number of digits with or without the mark of a base before them. -/
def magnitude? : List Char → Option Nat
  | '0' :: 'x' :: cs => number? 16 cs
  | '0' :: 'o' :: cs => number? 8 cs
  | '0' :: 'b' :: cs => number? 2 cs
  | cs => number? 10 cs

/-- The text without a sign. -/
def unsigned : List Char → List Char
  | '+' :: cs | '-' :: cs => cs
  | cs => cs

/-- Whether digits are no number, since a zero stands before them. -/
def isPadded (cs : List Char) : Bool :=
  match unsigned cs with
  | '0' :: c :: cs => (c :: cs).all Char.isDigit
  | _ => false

/-- The integer of a text, within 128 bits. -/
def int? (cs : List Char) : Option Int :=
  if isPadded cs then none
  else
    match cs with
    | '-' :: rest => do
      let n ← magnitude? rest
      if n ≤ Decimal.pow2 127 then some (-n) else none
    | _ => do
      let n ← magnitude? (match cs with | '+' :: rest => rest | cs => cs)
      if n < Decimal.pow2 128 then some n else none

/-! ### Numbers -/

def digits (cs : List Char) : List Nat × List Char :=
  ((cs.takeWhile Char.isDigit).map fun c => c.toNat - 48, cs.dropWhile Char.isDigit)

/-- The exponent at the end of a numeral: its sign and digits. -/
def exponent? : List Char → Option (Bool × List Nat)
  | [] => some (false, [])
  | c :: cs =>
    if c = 'e' || c = 'E' then
      let (ds, rest) := digits (unsigned cs)
      if ds.isEmpty || !rest.isEmpty then none else some (cs.head? = some '-', ds)
    else none

/-- A numeral with digits before or after the point; the point may be missing. -/
def numeral? (cs : List Char) : Option Decimal.Numeral :=
  let (whole, rest) := digits cs
  let (fraction, rest) := match rest with
    | '.' :: rest => digits rest
    | rest => ([], rest)
  if whole.isEmpty && fraction.isEmpty then none
  else (exponent? rest).map fun (negative, exponent) =>
    { whole, fraction, exponentNegative := negative, exponent }

/-- The names of infinity and of no number. -/
def specialWords : List String :=
  [".inf", ".Inf", ".INF", "+.inf", "+.Inf", "+.INF", "-.inf", "-.Inf", "-.INF",
    ".nan", ".NaN", ".NAN"]

def isFloat (s : String) : Bool :=
  specialWords.contains s ||
    match numeral? (unsigned s.toList) with
    | some n => n.isFinite
    | none => false

/-- What the text of a plain scalar stands for. -/
def ofPlain (s : String) : Meaning :=
  if s.isEmpty || isNull s then .null
  else
    match bool? s, int? s.toList with
    | some b, _ => .bool b
    | none, some n => .int n
    | none, none => if !isPadded s.toList && isFloat s then .float else .text

end Meaning

end Moore.Yaml
