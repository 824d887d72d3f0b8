import Moore.State.Json
import Moore.Template

/-
# Template models as JSON

The document form of template models, and its decoding.
-/

namespace Moore

namespace TemplateModel

/-! ### Encoding -/

def stateJson (s : TemplateState) : Json :=
  .obj [("name", .str s.name), ("default", .bool s.isDefault), ("outputs", s.outputs.toJson)]

def transitionJson (t : TemplateTransition) : Json :=
  .obj [("source", .str t.source), ("destination", .str t.destination),
    ("condition", .str t.condition), ("vhdl", .str t.relational)]

def toJson (m : TemplateModel) : Json :=
  .obj ([("name", .str m.name), ("inputs", .strings m.inputs), ("outputs", .strings m.outputs)] ++
    (m.defaultState.map fun s => ("default_state", .str s)).toList ++
    [("states", .ofList stateJson m.states), ("transitions", .ofList transitionJson m.transitions)])

/-! ### Decoding -/

open Json (Source DecodeError Decoder)

structure StateDraft where
  name : Option String := none
  isDefault : Option Bool := none
  outputs : Option Outputs := none

def stateRecord : Record Source DecodeError StateDraft TemplateState where
  name := "TemplateState"
  fields := [
    .of "name" false Decoder.string (·.name) fun d v => { d with name := some v },
    .of "default" true Decoder.bool (·.isDefault) fun d v => { d with isDefault := some v },
    .of "outputs" false (Decoder.named Decoder.level) (·.outputs)
      fun d v => { d with outputs := some v }]
  start := {}
  finish d :=
    match d.name, d.outputs with
    | some name, some outputs => .ok { name, isDefault := d.isDefault.getD false, outputs }
    | none, _ => .error "name"
    | _, none => .error "outputs"

structure TransitionDraft where
  source : Option String := none
  destination : Option String := none
  condition : Option String := none
  relational : Option String := none

def transitionRecord : Record Source DecodeError TransitionDraft TemplateTransition where
  name := "TemplateTransition"
  fields := [
    .of "source" false Decoder.string (·.source) fun d v => { d with source := some v },
    .of "destination" false Decoder.string (·.destination)
      fun d v => { d with destination := some v },
    .of "condition" false Decoder.string (·.condition) fun d v => { d with condition := some v },
    .of "vhdl" false Decoder.string (·.relational) fun d v => { d with relational := some v }]
  start := {}
  finish d :=
    match d.source, d.destination, d.condition, d.relational with
    | some source, some destination, some condition, some relational =>
      .ok { source, destination, condition, relational }
    | none, _, _, _ => .error "source"
    | _, none, _, _ => .error "destination"
    | _, _, none, _ => .error "condition"
    | _, _, _, none => .error "vhdl"

structure Draft where
  name : Option String := none
  inputs : Option (List String) := none
  outputs : Option (List String) := none
  defaultState : Option (Option String) := none
  states : Option (List TemplateState) := none
  transitions : Option (List TemplateTransition) := none

def modelRecord : Record Source DecodeError Draft TemplateModel where
  name := "TemplateModel"
  fields := [
    .of "name" false Decoder.string (·.name) fun d v => { d with name := some v },
    .of "inputs" false (Decoder.list Decoder.string) (·.inputs)
      fun d v => { d with inputs := some v },
    .of "outputs" false (Decoder.list Decoder.string) (·.outputs)
      fun d v => { d with outputs := some v },
    .of "default_state" true (Decoder.nullable Decoder.string) (·.defaultState)
      fun d v => { d with defaultState := some v },
    .of "states" false (Decoder.list (Decoder.record stateRecord)) (·.states)
      fun d v => { d with states := some v },
    .of "transitions" false (Decoder.list (Decoder.record transitionRecord)) (·.transitions)
      fun d v => { d with transitions := some v }]
  start := {}
  finish d :=
    match d.name, d.inputs, d.outputs, d.states, d.transitions with
    | some name, some inputs, some outputs, some states, some transitions =>
      .ok { name, inputs, outputs, defaultState := d.defaultState.join, states, transitions }
    | none, _, _, _, _ => .error "name"
    | _, none, _, _, _ => .error "inputs"
    | _, _, none, _, _ => .error "outputs"
    | _, _, _, none, _ => .error "states"
    | _, _, _, _, none => .error "transitions"

def ofJson (j : Json) : Except DecodeError TemplateModel :=
  Json.decode (Decoder.record modelRecord) j

end TemplateModel

end Moore
