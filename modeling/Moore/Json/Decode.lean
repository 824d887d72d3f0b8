import Moore.Json.Source
import Moore.Decimal.Shortest
import Moore.Level
import Moore.NameMap
import Moore.Record
import Moore.Text.Quoted

/-
# Decoding JSON

A decoder takes a source apart in the order of its text and stops at the first fault of
the text or the first value of the wrong shape.
-/

namespace Moore.Json

/-- What stands where something else is expected. -/
inductive Found where
  | null
  | bool (value : Bool)
  | int (value : Int)
  | float (value : Float)
  | str (value : String)
  | arr
  | obj

def Found.text : Found → String
  | null => "null"
  | bool b => s!"boolean `{b}`"
  | int n => s!"integer `{n}`"
  | float x => s!"floating point `{Decimal.text x}`"
  | str s => s!"string {Text.quoted s}"
  | arr => "sequence"
  | obj => "map"

/-- Why a value does not have the expected shape. -/
inductive Mismatch where
  | wrongType (found : Found) (expected : String)
  | wrongLength (length : Nat) (expected : String)
  | missingField (name : String)
  | duplicateField (name : String)
  /-- A level or a name is not accepted. -/
  | refused (reason : ExprError)

def Mismatch.message : Mismatch → String
  | wrongType found expected => s!"invalid type: {found.text}, expected {expected}"
  | wrongLength length expected => s!"invalid length {length}, expected {expected}"
  | missingField name => s!"missing field `{name}`"
  | duplicateField name => s!"duplicate field `{name}`"
  | refused reason => reason.message

/-- Why decoding failed. -/
inductive DecodeError where
  /-- The text is not JSON. -/
  | stopped (fault : Fault)
  | mismatch (reason : Mismatch)
  /-- An array that stands for a record has items left over; in a text that is as if the
  array did not end where it should. -/
  | surplus (length : Nat) (fault : Fault)

namespace DecodeError

def message : DecodeError → String
  | stopped .early => "unexpected end"
  | stopped .malformed => "malformed text"
  | mismatch reason => reason.message
  | surplus length _ => s!"invalid length {length}, expected fewer elements in array"

/-- Whether a text is not JSON (ending early or malformed) or JSON of the wrong shape. -/
def category : DecodeError → String
  | stopped .early | surplus _ .early => "eof"
  | stopped .malformed | surplus _ .malformed => "syntax"
  | mismatch _ => "data"

end DecodeError

/-- A way to read values of type `α`. -/
abbrev Decoder (α : Type) := Source → Except DecodeError α

namespace Decoder

variable {α : Type}

/-- The error of a value that is not `expected`. -/
def unexpected (expected : String) : Source → DecodeError
  | .null => .mismatch (.wrongType .null expected)
  | .bool b => .mismatch (.wrongType (.bool b) expected)
  | .int n => .mismatch (.wrongType (.int n) expected)
  | .float x => .mismatch (.wrongType (.float x) expected)
  | .str s => .mismatch (.wrongType (.str s) expected)
  | .arr _ => .mismatch (.wrongType .arr expected)
  | .obj _ => .mismatch (.wrongType .obj expected)
  | .damaged seen _ => .stopped seen

def string : Decoder String
  | .str s => .ok s
  | s => .error (unexpected "a string" s)

def bool : Decoder Bool
  | .bool b => .ok b
  | s => .error (unexpected "a boolean" s)

/-- A value that may be missing or null. -/
def nullable (decode : Decoder α) : Decoder (Option α)
  | .null => .ok none
  | s => (decode s).map some

/-- The items of an array. -/
def list (decode : Decoder α) : Decoder (List α)
  | .arr items => items.mapM decode
  | s => .error (unexpected "a sequence" s)

/-- A level, as a number, a digit or a truth value. -/
def level : Decoder Level
  | .bool b => accept (.bool b)
  | .int n => accept (.int n)
  | .str s => accept (.text s)
  | s => .error (unexpected "one of 0, 1, \"0\", \"1\", false or true" s)
where
  accept (v : LevelValue) : Except DecodeError Level :=
    v.level.mapError fun e => .mismatch (.refused e)

/-- The entries of an object, by their names. -/
def named (decode : Decoder α) : Decoder (NameMap α)
  | .obj entries => do
    let pairs ← entries.mapM fun (key, value) => do
      let name ← string key
      return (name, ← decode value)
    return NameMap.ofList pairs
  | s => .error (unexpected "a map" s)

/-! ### Skipping -/

mutual

/-- The first fault of a value that is passed over. -/
def faultIn : Source → Option Fault
  | .arr items => faultInItems items
  | .obj entries => faultInEntries entries
  | .damaged _ skipped => skipped
  | _ => none

def faultInItems : List Source → Option Fault
  | [] => none
  | s :: ss => (faultIn s).or (faultInItems ss)

def faultInEntries : List (Source × Source) → Option Fault
  | [] => none
  | (k, v) :: es => ((faultIn k).or (faultIn v)).or (faultInEntries es)

end

/-- Passes over a value. -/
def skip (s : Source) : Except DecodeError Unit :=
  match faultIn s with
  | some f => .error (.stopped f)
  | none => .ok ()

/-! ### Records -/

variable {δ : Type}

/-- Reads the entries of an object into a draft. -/
def readEntries (r : Record Source DecodeError δ α) (draft : δ) :
    List (Source × Source) → Except DecodeError δ
  | [] => .ok draft
  | (key, value) :: rest => do
    let name ← string key
    match r.field? name with
    | none =>
      skip value
      readEntries r draft rest
    | some field =>
      if field.isSet draft then throw (.mismatch (.duplicateField name))
      readEntries r (← field.read value draft) rest

/-- What the items left over in an array of `length` items amount to. -/
def leftOver (length : Nat) : List Source → Except DecodeError Unit
  | [] => .ok ()
  | .damaged .early _ :: _ => .error (.surplus length .early)
  | _ :: _ => .error (.surplus length .malformed)

/-- Reads the items of an array as the fields of a record, in the order of the fields.
Optional fields may be missing at the end. -/
def readItems (r : Record Source DecodeError δ α) (items : List Source) :
    Except DecodeError δ :=
  go r.start r.fields items
where
  go (draft : δ) : List (Field Source DecodeError δ) → List Source → Except DecodeError δ
    | [], rest => do
      leftOver items.length rest
      return draft
    | field :: fields, item :: rest => do
      go (← field.read item draft) fields rest
    | field :: fields, [] =>
      if field.optional then go draft fields []
      else .error (.mismatch (.wrongLength items.length
        s!"struct {r.name} with {r.fields.length} elements"))

/-- Finishes a draft. -/
def finish (r : Record Source DecodeError δ α) (draft : δ) : Except DecodeError α :=
  (r.finish draft).mapError fun name => .mismatch (.missingField name)

/-- A record, written as an object or as the array of its fields. -/
def record (r : Record Source DecodeError δ α) : Decoder α
  | .obj entries => do finish r (← readEntries r r.start entries)
  | .arr items => do finish r (← readItems r items)
  | s => .error (unexpected ("struct " ++ r.name) s)

end Decoder

/-- Decodes a value. -/
def decode {α : Type} (decoder : Decoder α) (j : Json) : Except DecodeError α :=
  decoder (Source.ofJson j)

/-- Decodes a text, which has to be over after the value. -/
def decodeText {α : Type} (decoder : Decoder α) (text : String) : Except DecodeError α := do
  let (source, trailing) := Source.ofText text
  let value ← decoder source
  if trailing then throw (.stopped .malformed)
  return value

end Moore.Json
