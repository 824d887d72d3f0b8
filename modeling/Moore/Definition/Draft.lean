import Moore.Definition.Basic
import Moore.Record

/-
# Definition documents as records

The fields of a document and of its entries, for any format.  A state needs a name,
transitions need sources and a target, and a document needs states.
-/

namespace Moore

/-! ### Drafts -/

structure StateEntry.Draft where
  name : Option String := none
  isDefault : Option Bool := none
  outputs : Option Outputs := none

def StateEntry.Draft.finish (d : StateEntry.Draft) : Except String StateEntry :=
  match d.name with
  | some name => .ok { name, isDefault := d.isDefault.getD false, outputs := d.outputs.getD ∅ }
  | none => .error "name"

structure TransitionEntry.Draft where
  sources : Option (List String) := none
  target : Option String := none
  condition : Option String := none

def TransitionEntry.Draft.finish (d : TransitionEntry.Draft) : Except String TransitionEntry :=
  match d.sources, d.target with
  | some sources, some target =>
    .ok { sources, target, condition := d.condition.getD TransitionEntry.defaultCondition }
  | none, _ => .error "from"
  | _, none => .error "to"

structure Document.Draft where
  name : Option (Option String) := none
  states : Option (List StateEntry) := none
  transitions : Option (List TransitionEntry) := none

def Document.Draft.finish (d : Document.Draft) : Except String Document :=
  match d.states with
  | some states => .ok { name := d.name.join, states, transitions := d.transitions.getD [] }
  | none => .error "states"

/-! ### Records -/

section Records

variable {σ ε : Type}

/-- The entry of a state, in a format that reads its parts with the given decoders. -/
def StateEntry.record (string : σ → Except ε String) (bool : σ → Except ε Bool)
    (outputs : σ → Except ε Outputs) : Record σ ε StateEntry.Draft StateEntry where
  name := "StateDefinition"
  fields := [
    .of "name" false string (·.name) fun d v => { d with name := some v },
    .of "default" true bool (·.isDefault) fun d v => { d with isDefault := some v },
    .of "outputs" true outputs (·.outputs) fun d v => { d with outputs := some v }]
  start := {}
  finish := StateEntry.Draft.finish

/-- The entry of transitions. -/
def TransitionEntry.record (string : σ → Except ε String)
    (sources : σ → Except ε (List String)) :
    Record σ ε TransitionEntry.Draft TransitionEntry where
  name := "TransitionDefinition"
  fields := [
    .of "from" false sources (·.sources) fun d v => { d with sources := some v },
    .of "to" false string (·.target) fun d v => { d with target := some v },
    .of "condition" true string (·.condition) fun d v => { d with condition := some v }]
  start := {}
  finish := TransitionEntry.Draft.finish

/-- The whole document. -/
def Document.record (name : σ → Except ε (Option String))
    (states : σ → Except ε (List StateEntry))
    (transitions : σ → Except ε (List TransitionEntry)) :
    Record σ ε Document.Draft Document where
  name := "MachineDefinitionRaw"
  fields := [
    .of "name" true name (·.name) fun d v => { d with name := some v },
    .of "states" false states (·.states) fun d v => { d with states := some v },
    .of "transitions" true transitions (·.transitions)
      fun d v => { d with transitions := some v }]
  start := {}
  finish := Document.Draft.finish

end Records

end Moore
