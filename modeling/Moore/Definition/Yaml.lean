import Moore.Definition.Draft
import Moore.Yaml.Decode

/-
# Definition documents as YAML

The decoding of documents; what YAML itself leaves open is settled in `Yaml.Decoder`.
-/

namespace Moore.Yaml.Decoder

/-- Outputs with identifiers for names. -/
def outputs (anchors : Anchors) : Decoder Outputs := fun node => do
  let outputs ← named anchors (level anchors) node
  (Outputs.check outputs).mapError fun _ => .mismatch
  return outputs

def document (anchors : Anchors) : Decoder Document :=
  record anchors (Document.record (nullable anchors (string anchors))
    (list anchors (record anchors
      (StateEntry.record (string anchors) (bool anchors) (outputs anchors))))
    (list anchors (record anchors (TransitionEntry.record (string anchors) (texts anchors)))))

end Moore.Yaml.Decoder
