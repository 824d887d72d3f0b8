import Moore.Machine

/-
# Diagnosis

All structural faults of a machine and all faults of the conditions under which its
states are left.  Where the checks of `Nodes` and `Edges` stop at the first fault, a
diagnosis collects every one.
-/

namespace Moore

/-- A fault of a machine. -/
inductive Finding where
  | duplicateName (name : String) (count : Nat)
  /-- Some states lack an output that others have. -/
  | missingOutput (output : String) (states : List String)
  /-- States are left and never entered. -/
  | unreachable (states : List String)
  /-- States are entered and never left. -/
  | unexitable (states : List String)
  | missingDefault
  /-- Several transitions lead from one state to one state. -/
  | parallelTransitions (source destination : String) (conditions : List String)
  /-- Two transitions that leave a state can fire together. -/
  | overlappingConditions (state first second : String)
  /-- No transition that leaves a state fires for some inputs. -/
  | nonExhaustive (state : String)
  deriving DecidableEq

namespace Finding

def code : Finding → String
  | duplicateName .. => "DUPLICATE_NAME"
  | missingOutput .. => "MISSING_OUTPUT"
  | unreachable _ => "UNREACHABLE_STATE"
  | unexitable _ => "UNEXITABLE_STATE"
  | missingDefault => "MISSING_DEFAULT"
  | parallelTransitions .. => "PARALLEL_TRANSITIONS"
  | overlappingConditions .. => "OVERLAPPING_CONDITIONS"
  | nonExhaustive _ => "NON_EXHAUSTIVE"

/-- Whether the finding concerns the conditions under which a state is left. -/
def isConditionCheck : Finding → Bool
  | overlappingConditions .. | nonExhaustive _ => true
  | _ => false

def message : Finding → String
  | duplicateName name count => s!"state name '{name}' is used {count} times"
  | missingOutput output states =>
    s!"output '{output}' is missing from {ModelError.listed states}"
  | unreachable states => s!"states {ModelError.listed states} are not reachable"
  | unexitable states => s!"states {ModelError.listed states} are not exitable"
  | missingDefault => "no default state"
  | parallelTransitions source destination conditions =>
    s!"{conditions.length} transitions from {source} to {destination} (" ++
      "; ".intercalate conditions ++ ")"
  | overlappingConditions state first second =>
    s!"leaving {state}: '{first}' overlaps '{second}'"
  | nonExhaustive state => s!"leaving {state}: conditions do not cover every input"

end Finding

/-- What a diagnosis finds. -/
structure Diagnosis where
  findings : List Finding
  /-- No two conditions of the whole machine can hold at once. -/
  exclusive : Bool
  /-- Some condition of the whole machine holds whatever the inputs. -/
  exhaustive : Bool
  deriving DecidableEq

def Diagnosis.isClean (d : Diagnosis) : Bool :=
  d.findings.isEmpty

namespace Graph

variable (g : Graph)

def duplicateNames : List Finding :=
  (Nodes.names g.nodes).filterMap fun (name, count) =>
    if 1 < count then some (.duplicateName name count) else none

/-- The names of the states without an output. -/
def lacking (output : String) : List String :=
  (g.nodes.filter fun n => (n.state.outputs.get? output).isNone).map Node.name

def missingOutputs : List Finding :=
  g.outputs.filterMap fun (output, count) =>
    if count ≠ g.nodes.length then some (.missingOutput output (g.lacking output)) else none

/-- A finding about some states, if there are any. -/
def aboutStates (finding : List String → Finding) (ns : List Node) : List Finding :=
  if ns.isEmpty then [] else [finding (ns.map Node.name)]

def defaultFindings : List Finding :=
  if g.defaultNode.isNone then [.missingDefault] else []

/-- The finding about edges with the same ends. -/
def parallelFinding? : List Edge → Option Finding
  | [] => none
  | e :: es =>
    some (.parallelTransitions e.source.name e.destination.name
      ((e :: es).map (·.condition.text)))

/-- The findings about the conditions of the edges that leave a state. -/
def leavingFindings (state : String) (cs : ConditionSet) : List Finding :=
  if cs.isEmpty then []
  else
    ((laterPairs cs).filter fun p => Condition.overlaps p.1 p.2).map
      (fun p => .overlappingConditions state p.1.text p.2.text) ++
    if ConditionSet.isExhaustive cs then [] else [.nonExhaustive state]

/-- The conditions of the edges that leave a state. -/
def leavingConditions (id : StateId) : ConditionSet :=
  Edges.conditions (Edges.leaving id g.edges)

/-- Runs all checks. -/
def diagnose : Diagnosis where
  findings :=
    g.duplicateNames ++ g.missingOutputs ++
    aboutStates .unreachable (Edges.unreachable g.edges) ++
    aboutStates .unexitable (Edges.unexitable g.edges) ++
    g.defaultFindings ++
    (Edges.parallelGroups g.edges).filterMap parallelFinding? ++
    g.nodes.flatMap fun n => leavingFindings n.name (g.leavingConditions n.id)
  exclusive := ConditionSet.isExclusive (Edges.conditions g.edges)
  exhaustive := ConditionSet.isExhaustive (Edges.conditions g.edges)

end Graph

end Moore
