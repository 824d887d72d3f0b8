import Moore.Condition
import Moore.Handle

/-
# States and transitions

A state of a Moore machine has a name, a level for each of its outputs, and a flag that
marks a default state.  A transition leads from one state to another under a condition.
-/

namespace Moore

/-- The levels of the outputs of a state. -/
abbrev Outputs := NameMap Level

structure State where
  name : String
  outputs : Outputs := ∅
  isDefault : Bool := false
  deriving DecidableEq, Inhabited

structure Transition where
  source : StateId
  destination : StateId
  condition : Condition
  deriving DecidableEq

/-- Whether two transitions lead from the same state to the same state. -/
def Transition.parallels (s t : Transition) : Bool :=
  s.source = t.source && s.destination = t.destination

/-- Sets outputs one after the other, up to the first with a bad value or name; of these
two the value is looked at first. -/
def Outputs.build (outputs : Outputs) : List (String × LevelValue) → Except ExprError Outputs
  | [] => .ok outputs
  | (name, value) :: rest => do
    let level ← value.level
    checkIdentifier name
    build (outputs.insert name level) rest

/-- Refuses a name among outputs that is no identifier. -/
def Outputs.check (outputs : Outputs) : Except ExprError Unit :=
  outputs.names.forM checkIdentifier

/-- A new state. -/
def State.build (name : String) (outputs : List (String × LevelValue)) :
    Except ExprError State := do
  checkIdentifier name
  let outputs ← Outputs.build ∅ outputs
  return { name, outputs }

end Moore
