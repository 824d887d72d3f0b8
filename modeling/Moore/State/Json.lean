import Moore.Json.Decode
import Moore.State

/-
# Outputs as JSON

Outputs are written as an object of digits.
-/

namespace Moore

def Outputs.toJson (outputs : Outputs) : Json :=
  .obj (outputs.entries.map fun e => (e.1, .int e.2.bit))

namespace Json.Decoder

/-- Outputs with identifiers for names. -/
def outputs : Decoder Outputs := fun s => do
  let outputs ← named level s
  (Outputs.check outputs).mapError fun e => .mismatch (.refused e)
  return outputs

end Json.Decoder

end Moore
