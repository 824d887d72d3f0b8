/-
# Records

A record is read field by field from the entries of a document, whatever its format.  The
fields met so far are kept in a draft; a field may be met once, and fields of other names
are passed over.
-/

namespace Moore

/-- A field of the records drafted as `δ`, read from values of type `σ`. -/
structure Field (σ ε δ : Type) where
  name : String
  /-- The record does without this field. -/
  optional : Bool
  /-- Whether a draft has the field. -/
  isSet : δ → Bool
  /-- Reads the field into a draft. -/
  read : σ → δ → Except ε δ

/-- The field `name` of a draft, kept where `get` and `set` say. -/
def Field.of {σ ε δ α : Type} (name : String) (optional : Bool) (decode : σ → Except ε α)
    (get : δ → Option α) (set : δ → α → δ) : Field σ ε δ where
  name
  optional
  isSet draft := (get draft).isSome
  read value draft := (decode value).map (set draft)

/-- A kind of record. -/
structure Record (σ ε δ α : Type) where
  name : String
  fields : List (Field σ ε δ)
  start : δ
  /-- The record of a draft, or the name of a field that it lacks. -/
  finish : δ → Except String α

namespace Record

variable {σ ε δ α : Type}

/-- The field of a name. -/
def field? (r : Record σ ε δ α) (name : String) : Option (Field σ ε δ) :=
  r.fields.find? (·.name = name)

end Record

end Moore
