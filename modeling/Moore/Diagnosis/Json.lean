import Moore.Diagnosis
import Moore.Json.Basic

/-
# Diagnoses as JSON

The document form of findings and diagnoses.
-/

namespace Moore

def Finding.toJson : Finding → Json
  | duplicateName name count =>
    .obj [("kind", .str "duplicate_name"), ("name", .str name), ("count", .int count)]
  | missingOutput output states =>
    .obj [("kind", .str "missing_output"), ("output", .str output), ("states", .strings states)]
  | unreachable states => .obj [("kind", .str "unreachable"), ("states", .strings states)]
  | unexitable states => .obj [("kind", .str "unexitable"), ("states", .strings states)]
  | missingDefault => .obj [("kind", .str "missing_default")]
  | parallelTransitions source destination conditions =>
    .obj [("kind", .str "parallel_transitions"), ("source", .str source),
      ("destination", .str destination), ("conditions", .strings conditions)]
  | overlappingConditions state first second =>
    .obj [("kind", .str "overlapping_conditions"), ("state", .str state), ("first", .str first),
      ("second", .str second)]
  | nonExhaustive state => .obj [("kind", .str "non_exhaustive"), ("state", .str state)]

def Diagnosis.toJson (d : Diagnosis) : Json :=
  .obj [("findings", .ofList Finding.toJson d.findings), ("exclusive", .bool d.exclusive),
    ("exhaustive", .bool d.exhaustive)]

end Moore
