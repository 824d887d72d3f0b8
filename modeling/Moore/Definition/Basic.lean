import Moore.Machine
import Moore.Template

/-
# Definition documents

A document lists states and transitions by name; a transition may name several sources
and then stands for one transition from each.  A document defines a machine if its names
are identifiers, each end of a transition names exactly one state, and every condition can
be read.
-/

namespace Moore

/-- A state as a document defines it. -/
structure StateEntry where
  name : String
  isDefault : Bool := false
  outputs : Outputs := ∅
  deriving DecidableEq

/-- Transitions with a common target as a document defines them. -/
structure TransitionEntry where
  sources : List String
  target : String
  condition : String
  deriving DecidableEq

/-- The condition of an entry that gives none. -/
def TransitionEntry.defaultCondition : String := "TRUE"

structure Document where
  name : Option String := none
  states : List StateEntry
  transitions : List TransitionEntry := []
  deriving DecidableEq

/-- The part that a state plays in a transition. -/
inductive Role where
  | source
  | target
  deriving DecidableEq, Repr

def Role.text : Role → String
  | source => "source"
  | target => "target"

/-- Why a document defines no machine. -/
inductive DocumentFault where
  /-- A name is no identifier, or a text no condition. -/
  | model (error : ModelError)
  /-- A transition entry names no source. -/
  | noSource (target : String)
  /-- An end of a transition names several states. -/
  | ambiguous (role : Role) (name : String) (count : Nat)
  /-- An end of a transition names no state. -/
  | missing (role : Role) (name : String)
  deriving DecidableEq

def DocumentFault.message : DocumentFault → String
  | model e => e.message
  | noSource target => s!"invalid machine definition: transition to '{target}' has no source state"
  | ambiguous role name count =>
    s!"invalid machine definition: transition {role.text} '{name}' is ambiguous: " ++
      s!"{count} states share the name"
  | missing role name =>
    s!"invalid machine definition: transition {role.text} '{name}' not in states list"

namespace Document

/-- The handle of the only state of a name: its place among the states. -/
def resolve (d : Document) (role : Role) (name : String) : Except DocumentFault StateId :=
  match d.states.zipIdx.filter (·.1.name = name) with
  | [(_, index)] => .ok ⟨index⟩
  | [] => .error (.missing role name)
  | found => .error (.ambiguous role name found.length)

/-- Stores and registers the state of an entry. -/
def addState (w : World) (e : StateEntry) : Except DocumentFault World := do
  (checkIdentifier e.name).mapError fun err => .model (.expr err)
  let stored := { w with store := w.store.addState { name := e.name, outputs := e.outputs } }
  (stored.addState w.store.nextState e.isDefault).mapError .model

/-- Stores and registers a transition. -/
def addTransition (w : World) (t : Transition) : Except DocumentFault World := do
  let store ← (w.store.addTransition t).mapError .model
  ({ w with store }.addTransition w.store.nextTransition).mapError .model

/-- Stores and registers the transitions of an entry. -/
def addTransitions (d : Document) (w : World) (e : TransitionEntry) :
    Except DocumentFault World := do
  if e.sources.isEmpty then throw (.noSource e.target)
  let destination ← d.resolve .target e.target
  let condition ← (Condition.parse e.condition).mapError .model
  e.sources.foldlM (fun w name => do
    let source ← d.resolve .source name
    addTransition w { source, destination, condition }) w

/-- The machine that a document defines, in a store of its own. -/
def build (d : Document) : Except DocumentFault World := do
  let w ← d.states.foldlM addState {}
  d.transitions.foldlM d.addTransitions w

end Document

end Moore
