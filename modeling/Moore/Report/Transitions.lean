import Moore.Definition.Load
import Moore.Text.Paint

/-
# Transition reports

The transitions of a machine, one a line: all of them with the relational texts of their
conditions, or those that given inputs enable.
-/

namespace Moore.Definition

variable (d : Definition) (colors : Bool)

/-- The line of a transition, with the relational text of its condition. -/
def loweredLine (e : Edge) : Except ModelError String := do
  let condition ← Condition.relational e.condition
  return Text.paint colors .cyan e.source.name ++ " -> " ++
    Text.paint colors .cyan e.destination.name ++ ": " ++ condition

/-- All transitions with the relational texts of their conditions. -/
def loweredText : Except ModelError String := do
  let lines ← d.graph.edges.mapM (loweredLine colors)
  if lines.isEmpty then return Text.paint colors .yellow "No transitions"
  else return "\n".intercalate lines

/-- The transitions that leave the state of a name, or all transitions.  It is an error if
not exactly one state has the name. -/
def edgesFrom (name : Option String) : Except String (List Edge) :=
  match name with
  | none => .ok d.graph.edges
  | some name =>
    match Nodes.named d.graph.nodes name with
    | [n] => .ok (Edges.leaving n.id d.graph.edges)
    | found => .error s!"expected exactly one state named '{name}', found {found.length}"

/-- The line of an enabled transition. -/
def enabledLine (e : Edge) : String :=
  Text.paint colors .cyan e.source.name ++ " -> " ++
    Text.paint colors .green e.destination.name ++ " (" ++ e.condition.text ++ ")"

/-- The transitions that the inputs enable, of all or of those that leave one state. -/
def enabledText (b : Bindings) (source : Option String) : Except String String := do
  let enabled := Edges.enabled b (← d.edgesFrom source)
  if enabled.isEmpty then return Text.paint colors .yellow "No transition enabled"
  else return "\n".intercalate (enabled.map (enabledLine colors))

end Moore.Definition
