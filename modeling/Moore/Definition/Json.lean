import Moore.Definition.Draft
import Moore.State.Json

/-
# Definition documents as JSON

The canonical document form, and the decoding of all accepted forms.
-/

namespace Moore

/-! ### Encoding -/

def StateEntry.toJson (e : StateEntry) : Json :=
  .obj ([("name", .str e.name)] ++ (if e.isDefault then [("default", .bool true)] else []) ++
    [("outputs", e.outputs.toJson)])

def TransitionEntry.toJson (e : TransitionEntry) : Json :=
  .obj [("from", .strings e.sources), ("to", .str e.target), ("condition", .str e.condition)]

def Document.toJson (d : Document) : Json :=
  .obj ((d.name.map fun s => ("name", .str s)).toList ++
    [("states", .ofList StateEntry.toJson d.states),
      ("transitions", .ofList TransitionEntry.toJson d.transitions)])

/-! ### Decoding -/

namespace Json.Decoder

/-- A name or an array of names. -/
def sources : Decoder (List String)
  | .str s => .ok [s]
  | .arr items => items.mapM string
  | s => .error (unexpected "a state name or array of state names" s)

def document : Decoder Document :=
  record (Document.record (nullable string)
    (list (record (StateEntry.record string bool outputs)))
    (list (record (TransitionEntry.record string sources))))

end Json.Decoder

end Moore
