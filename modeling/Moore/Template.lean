import Moore.Machine

/-
# Template models

All that a template needs to write one machine as a hardware description: names in plain
text and conditions in both of their written forms.
-/

namespace Moore

/-- The name of a machine that has none of its own. -/
def defaultMachineName : String := "MooreFSM"

structure TemplateState where
  name : String
  isDefault : Bool
  outputs : Outputs
  deriving DecidableEq

structure TemplateTransition where
  source : String
  destination : String
  /-- The canonical text of the condition. -/
  condition : String
  /-- The relational text of the condition. -/
  relational : String
  deriving DecidableEq

structure TemplateModel where
  name : String
  inputs : List String
  outputs : List String
  defaultState : Option String
  states : List TemplateState
  transitions : List TemplateTransition
  deriving DecidableEq

namespace TemplateModel

def ofNode (n : Node) : TemplateState where
  name := n.name
  isDefault := n.state.isDefault
  outputs := n.state.outputs

def ofEdge (e : Edge) : Except ModelError TemplateTransition := do
  let relational ← Condition.relational e.condition
  return {
    source := e.source.name
    destination := e.destination.name
    condition := e.condition.text
    relational }

/-- The model of a machine under a name, which has to be an identifier. -/
def ofGraph (name : String) (g : Graph) : Except ModelError TemplateModel := do
  (checkIdentifier name).mapError .expr
  let transitions ← g.edges.mapM ofEdge
  return {
    name
    inputs := g.inputs
    outputs := g.outputs.map (·.1)
    defaultState := g.defaultNode.map Node.name
    states := g.nodes.map ofNode
    transitions }

end TemplateModel

end Moore
