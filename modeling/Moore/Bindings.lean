import Moore.NameMap
import Moore.Identifier
import Moore.Level
import Moore.Text.Blank
import Moore.Expr.Error

/-
# Bindings of inputs

`Bindings` gives some inputs a level, held as a truth value.  The written form is a
sequence of entries `name=value`, separated by commas and white space.
-/

namespace Moore

/-- The values of the bound inputs. -/
abbrev Bindings := NameMap Bool

namespace Bindings

/-- The characters between two entries. -/
def isSeparator (c : Char) : Bool :=
  c = ',' || Text.isBlank c

/-- The value of an entry: a word or a digit. -/
def readValue (text : String) : Except ExprError Bool :=
  if text = "true" then .ok true
  else if text = "false" then .ok false
  else match Level.ofText? text with
    | some level => .ok level.isHigh
    | none => .error (.invalidValue text)

/-- One entry, split at its first equals sign. -/
def readEntry (entry : List Char) : Except ExprError (String × Bool) :=
  match Text.splitAtFirst? (· = '=') entry with
  | none => .error (.invalidValue (String.ofList entry))
  | some (left, right) =>
    let name := String.ofList (Text.trimChars left)
    if isIdentifier name then
      (readValue (String.ofList (Text.trimChars right))).map fun value => (name, value)
    else .error (.invalidIdentifier name)

/-- Binds one entry after the other, up to the first that cannot be read. -/
def readEntries (b : Bindings) : List (List Char) → Except ExprError Bindings
  | [] => .ok b
  | entry :: rest =>
    match readEntry entry with
    | .ok e => readEntries (b.insert e.1 e.2) rest
    | .error err => .error err

/-- Reads bindings; of two entries with one name the later counts. -/
def parse (text : String) : Except ExprError Bindings :=
  readEntries ∅ (Text.pieces isSeparator text.toList)

end Bindings

end Moore
