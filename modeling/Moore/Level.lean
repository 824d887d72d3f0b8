import Moore.Expr.Error

/-
# Logic levels

The level of an output or of a bound input, and the values that may stand for one.
-/

namespace Moore

/-- A single bit. -/
inductive Level where
  | low
  | high
  deriving DecidableEq, Repr, Inhabited

namespace Level

def ofBool (b : Bool) : Level := if b then high else low

def isHigh : Level → Bool
  | low => false
  | high => true

/-- The level as a digit. -/
def bit : Level → Nat
  | low => 0
  | high => 1

/-- The level of an integer: 0 and 1 have one. -/
def ofInt? (n : Int) : Option Level :=
  if n = 0 then some low else if n = 1 then some high else none

/-- The level of a text: the digits 0 and 1 have one. -/
def ofText? (s : String) : Option Level :=
  if s = "0" then some low else if s = "1" then some high else none

/-- The digit as a text. -/
def text : Level → String
  | low => "0"
  | high => "1"

@[simp] theorem isHigh_ofBool (b : Bool) : (ofBool b).isHigh = b := by
  cases b <;> rfl

@[simp] theorem ofInt?_bit (l : Level) : ofInt? l.bit = some l := by
  cases l <;> rfl

@[simp] theorem ofText?_text (l : Level) : ofText? l.text = some l := by
  cases l <;> decide

end Level

/-- A value that may stand for a level. -/
inductive LevelValue where
  | int (value : Int)
  | text (value : String)
  | bool (value : Bool)
  deriving DecidableEq, Repr

/-- The level a value stands for. -/
def LevelValue.level : LevelValue → Except ExprError Level
  | int n =>
    match Level.ofInt? n with
    | some level => .ok level
    | none => .error (.invalidValue (toString n))
  | text s =>
    match Level.ofText? s with
    | some level => .ok level
    | none => .error (.invalidValue s)
  | bool b => .ok (Level.ofBool b)

end Moore
