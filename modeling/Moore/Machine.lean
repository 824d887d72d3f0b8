import Moore.Graph

/-
# Machines

A Moore machine registers states and transitions of a store and may have a default state.
A world is a store with one machine; `Edit` lists the ways to change it, and an edit that
fails leaves no trace.
-/

namespace Moore

/-- A machine, by the handles of what it registers. -/
structure Machine where
  states : StateSet := ∅
  transitions : TransitionSet := ∅
  defaultState : Option StateId := none
  deriving DecidableEq, Inhabited

/-- A machine read in a store. -/
structure Graph where
  nodes : List Node
  edges : List Edge
  defaultNode : Option Node
  deriving DecidableEq

namespace Graph

/-- The inputs that conditions read. -/
def inputs (g : Graph) : List String :=
  ConditionSet.inputs (Edges.conditions g.edges)

/-- The outputs of the states, each with the number of states that define it. -/
def outputs (g : Graph) : List (String × Nat) :=
  Nodes.outputs g.nodes

end Graph

/-- A store with a machine. -/
structure World where
  store : Store := {}
  machine : Machine := {}
  deriving DecidableEq, Inhabited

/-- A condition as it is given: a text or an expression. -/
inductive ConditionSource where
  | text (text : String)
  | built (expr : Expr)

def ConditionSource.condition : ConditionSource → Except ModelError Condition
  | text s => Condition.parse s
  | built e => .ok e

/-- A change of a world. -/
inductive Edit where
  | newState (name : String) (outputs : List (String × LevelValue))
  | newTransition (source destination : StateId) (condition : ConditionSource)
  | setName (id : StateId) (name : String)
  | setOutputs (id : StateId) (outputs : List (String × LevelValue))
  | setDefault (id : StateId) (value : Bool)
  | setCondition (id : TransitionId) (condition : ConditionSource)
  /-- Registers a state, also as the default one if `isDefault`. -/
  | addState (id : StateId) (isDefault : Bool)
  /-- Registers a transition. -/
  | addTransition (id : TransitionId)

namespace World

/-- The machine of a world, read in its store. -/
def graph (w : World) : Graph where
  nodes := w.store.nodes w.machine.states
  edges := w.store.edges w.machine.transitions
  defaultNode := w.machine.defaultState.bind w.store.node?

/-- Registers a state.  As default it replaces an earlier default state and is marked;
the earlier one keeps its mark. -/
def addState (w : World) (id : StateId) (isDefault : Bool) : Except ModelError World := do
  w.store.checkState id
  let machine := { w.machine with states := w.machine.states.insert id }
  if isDefault then
    let store ← w.store.modifyState id fun s => { s with isDefault := true }
    return { store, machine := { machine with defaultState := some id } }
  else return { w with machine }

/-- Registers a transition. -/
def addTransition (w : World) (id : TransitionId) : Except ModelError World := do
  w.store.checkTransition id
  return { w with
    machine := { w.machine with transitions := w.machine.transitions.insert id } }

/-- Changes a world.  Names, levels and conditions are read before handles are looked up,
except that a state must be known before it gets a name. -/
def apply (w : World) : Edit → Except ModelError World
  | .newState name outputs => do
    let state ← (State.build name outputs).mapError .expr
    return { w with store := w.store.addState state }
  | .newTransition source destination condition => do
    let condition ← condition.condition
    let store ← w.store.addTransition { source, destination, condition }
    return { w with store }
  | .setName id name => do
    w.store.checkState id
    (checkIdentifier name).mapError .expr
    let store ← w.store.modifyState id fun s => { s with name }
    return { w with store }
  | .setOutputs id outputs => do
    let outputs ← (Outputs.build ∅ outputs).mapError .expr
    let store ← w.store.modifyState id fun s => { s with outputs }
    return { w with store }
  | .setDefault id value => do
    let store ← w.store.modifyState id fun s => { s with isDefault := value }
    return { w with store }
  | .setCondition id condition => do
    let condition ← condition.condition
    let store ← w.store.modifyTransition id fun t => { t with condition }
    return { w with store }
  | .addState id isDefault => w.addState id isDefault
  | .addTransition id => w.addTransition id

/-- The world after an edit; a failing edit changes nothing. -/
def step (w : World) (e : Edit) : World :=
  match w.apply e with
  | .ok w' => w'
  | .error _ => w

/-- The world after a run of edits. -/
def run (w : World) (es : List Edit) : World :=
  es.foldl step w

end World

end Moore
