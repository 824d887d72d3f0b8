import Moore.Store

/-
# Nodes and edges

A set of states or of transitions is read in a store: a node is a state together with its
handle, and an edge is a transition together with its handle and its two nodes.  Handles
that the store does not hold have no node or edge; a set is known to the store if it has
none of them.
-/

namespace Moore

structure Node where
  id : StateId
  state : State
  deriving DecidableEq

structure Edge where
  id : TransitionId
  source : Node
  destination : Node
  condition : Condition
  deriving DecidableEq

def Node.name (n : Node) : String := n.state.name

namespace Store

def node? (s : Store) (id : StateId) : Option Node :=
  (s.state? id).map fun state => { id, state }

def edge? (s : Store) (id : TransitionId) : Option Edge := do
  let t ← s.transition? id
  let source ← s.node? t.source
  let destination ← s.node? t.destination
  return { id, source, destination, condition := t.condition }

/-- The members of a set of states, in the order of their handles. -/
def nodes (s : Store) (set : StateSet) : List Node :=
  set.handles.filterMap s.node?

/-- The members of a set of transitions, in the order of their handles. -/
def edges (s : Store) (set : TransitionSet) : List Edge :=
  set.handles.filterMap s.edge?

/-- Whether the store holds every state of a set. -/
def knowsStates (s : Store) (set : StateSet) : Bool :=
  set.handles.all fun id => (s.node? id).isSome

/-- Whether the store holds every transition of a set. -/
def knowsTransitions (s : Store) (set : TransitionSet) : Bool :=
  set.handles.all fun id => (s.edge? id).isSome

end Store

/-! ### Nodes -/

/-- The different texts of a list, in order, each with the number of times it occurs. -/
def tally (l : List String) : List (String × Nat) :=
  (Ordered.ofList compare l).map fun s => (s, l.count s)

namespace Nodes

/-- The names of states, each with the number of states that bear it. -/
def names (ns : List Node) : List (String × Nat) :=
  tally (ns.map Node.name)

/-- The names of outputs, each with the number of states that define it. -/
def outputs (ns : List Node) : List (String × Nat) :=
  tally (ns.flatMap (·.state.outputs.names))

/-- The states of a name. -/
def named (ns : List Node) (name : String) : List Node :=
  ns.filter (·.name = name)

/-- Refuses states of equal names, and outputs that some states have and others lack. -/
def validate (ns : List Node) : Except ModelError Unit :=
  match (names ns).find? (1 < ·.2) with
  | some (name, count) => .error (.duplicateName name count)
  | none =>
    match (outputs ns).find? (·.2 ≠ ns.length) with
    | some (output, count) => .error (.unevenOutput output count ns.length)
    | none => .ok ()

/-- Compares nodes by their handles. -/
def cmp (m n : Node) : Ordering :=
  compare m.id.index n.id.index

/-- The nodes of a list, each once, in the order of their handles. -/
def distinct (ns : List Node) : List Node :=
  Ordered.ofList cmp ns

/-- The nodes of the first list that the second does not hold. -/
def difference (ms ns : List Node) : List Node :=
  ms.filter fun m => !ns.any (·.id = m.id)

end Nodes

/-! ### Edges -/

/-- How a choice of transitions by their two ends combines them. -/
inductive FilterMode where
  /-- Both ends have to match. -/
  | and
  /-- One end has to match. -/
  | or
  deriving DecidableEq, Repr

namespace FilterMode

def parse (text : String) : Except ModelError FilterMode :=
  if text = "and" then .ok and
  else if text = "or" then .ok or
  else .error (.filterMode text)

end FilterMode

namespace Edges

/-- The states that edges leave. -/
def sources (es : List Edge) : List Node :=
  Nodes.distinct (es.map (·.source))

/-- The states that edges enter. -/
def destinations (es : List Edge) : List Node :=
  Nodes.distinct (es.map (·.destination))

def conditions (es : List Edge) : ConditionSet :=
  es.map (·.condition)

/-- The edges between the given ends.  If only one end is given, or one matching end is
enough, every edge is chosen that matches a given end. -/
def between (source destination : Option StateId) (mode : FilterMode) (es : List Edge) :
    List Edge :=
  es.filter fun e =>
    let leaves := source = some e.source.id
    let enters := destination = some e.destination.id
    if mode = .and ∧ source.isSome ∧ destination.isSome then leaves && enters
    else leaves || enters

/-- The edges that leave a state. -/
def leaving (id : StateId) (es : List Edge) : List Edge :=
  between (some id) none .and es

/-- The edges whose condition the bindings make true. -/
def enabled (b : Bindings) (es : List Edge) : List Edge :=
  es.filter fun e => Condition.isSatisfiedBy e.condition b

/-- The states that are left and never entered. -/
def unreachable (es : List Edge) : List Node :=
  Nodes.difference (sources es) (destinations es)

/-- The states that are entered and never left. -/
def unexitable (es : List Edge) : List Node :=
  Nodes.difference (destinations es) (sources es)

/-- Refuses states that are only ever left, then those that are only ever entered. -/
def checkReachability (es : List Edge) : Except ModelError Unit :=
  if !(unreachable es).isEmpty then .error (.unreachable ((unreachable es).map Node.name))
  else if !(unexitable es).isEmpty then .error (.unexitable ((unexitable es).map Node.name))
  else .ok ()

/-- The handles of the two ends of an edge. -/
def ends (e : Edge) : StateId × StateId :=
  (e.source.id, e.destination.id)

/-- The pairs of edges with the same ends. -/
def parallelPairs (es : List Edge) : List (Edge × Edge) :=
  (laterPairs es).filter fun p => ends p.1 = ends p.2

/-- Whether a group of edges holds one with this handle. -/
def holds (group : List Edge) (e : Edge) : Bool :=
  group.any (·.id = e.id)

/-- Puts the second edge of a pair into the first group that holds the first one, unless it is
there already.  The pair is a new group if none holds the first edge. -/
def addPair : List (List Edge) → Edge × Edge → List (List Edge)
  | [], (a, b) => [[a, b]]
  | group :: groups, (a, b) =>
    if holds group a then (if holds group b then group else group ++ [b]) :: groups
    else group :: addPair groups (a, b)

/-- The groups of two or more edges with the same ends, in the order of their first
members.  They grow pair by pair. -/
def parallelGroups (es : List Edge) : List (List Edge) :=
  (parallelPairs es).foldl addPair []

end Edges

end Moore
