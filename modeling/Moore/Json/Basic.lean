/-
# JSON values

The values that definition documents, template models and reports are written as.
Objects keep the order of their entries.
-/

namespace Moore

/-- A JSON value. -/
inductive Json where
  | null
  | bool (value : Bool)
  | int (value : Int)
  | float (value : Float)
  | str (value : String)
  | arr (items : List Json)
  | obj (entries : List (String × Json))
  deriving Inhabited

namespace Json

/-- The array of the items, each encoded. -/
def ofList {α : Type} (encode : α → Json) (l : List α) : Json :=
  .arr (l.map encode)

/-- The array of texts. -/
def strings (l : List String) : Json :=
  ofList .str l

/-- The value of an entry of an object. -/
def get? (key : String) : Json → Option Json
  | .obj entries => entries.lookup key
  | _ => none

end Json

end Moore
