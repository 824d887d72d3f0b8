import Moore.Definition.Load
import Moore.Diagnosis.Json
import Moore.Settings.Basic
import Moore.Text.Paint

/-
# Check reports

A check report tells which findings about a machine are errors under the rules that are set,
and which only warnings.  The machine passes if there is no error, neither among the findings
nor in the conditions as a whole.
-/

namespace Moore

/-- A text to print, and whether what it reports is a success. -/
structure Outcome where
  text : String
  success : Bool := true
  deriving DecidableEq, Repr

/-- How a finding counts. -/
inductive Severity where
  | error
  | warning
  deriving DecidableEq, Repr

namespace Severity

def label : Severity → String
  | error => "error"
  | warning => "warning"

def paint : Severity → Text.Paint
  | error => .red
  | warning => .yellow

/-- The label as it is printed. -/
def painted (colors : Bool) (s : Severity) : String :=
  Text.paint colors s.paint s.label

end Severity

/-- Whether the rules make a finding an error. -/
def CheckRules.forbids (rules : CheckRules) : Finding → Bool
  | .overlappingConditions .. | .nonExhaustive _ => rules.perState
  | .unreachable _ | .unexitable _ => rules.reachability
  | .missingDefault => rules.requireDefault
  | .duplicateName .. | .missingOutput .. | .parallelTransitions .. => true

/-- What a check tells about a machine. -/
structure CheckReport where
  name : String
  checksum : String
  /-- The number of states. -/
  states : Nat
  /-- The number of transitions. -/
  transitions : Nat
  rules : CheckRules
  diagnosis : Diagnosis
  deriving DecidableEq

/-- Checks a machine. -/
def Definition.check (d : Definition) (rules : CheckRules) : CheckReport where
  name := d.name
  checksum := d.checksum
  states := d.world.machine.states.size
  transitions := d.world.machine.transitions.size
  rules
  diagnosis := d.graph.diagnose

namespace CheckReport

variable (r : CheckReport)

/-- How a finding counts in the report. -/
def severity (f : Finding) : Severity :=
  if r.rules.forbids f then .error else .warning

/-- The findings that are errors. -/
def failures : List Finding :=
  r.diagnosis.findings.filter r.rules.forbids

/-- Whether the conditions as a whole are an error. -/
def wholeSetFails : Bool :=
  r.rules.wholeSet && !(r.diagnosis.exclusive && r.diagnosis.exhaustive)

def passed : Bool :=
  r.failures.isEmpty && !r.wholeSetFails

/-! ### The text -/

def heading (colors : Bool) : String :=
  Text.paint colors .bold "Machine" ++ " " ++ Text.paint colors .cyan r.name ++
    s!" ({r.states} states, {r.transitions} transitions, checksum {r.checksum})"

/-- The line of a finding. -/
def findingLine (colors : Bool) (f : Finding) : String :=
  "  " ++ (r.severity f).painted colors ++ " [" ++ Text.paint colors .dimmed f.code ++ "] " ++
    f.message

/-- The lines about the conditions as a whole. -/
def wholeSetLines (colors : Bool) : List String :=
  s!"  whole set: exclusive={r.diagnosis.exclusive} exhaustive={r.diagnosis.exhaustive}" ::
    if r.wholeSetFails then
      ["  " ++ Severity.error.painted colors ++
        " transition conditions are not exclusive and exhaustive as a whole"]
    else []

def verdict (colors : Bool) : String :=
  if r.passed then Text.paint colors .green "OK" else Text.paint colors .red "FAILED"

def lines (colors : Bool) : List String :=
  r.heading colors :: r.diagnosis.findings.map (r.findingLine colors) ++
    r.wholeSetLines colors ++ [r.verdict colors]

/-! ### Other formats -/

def toJson : Json :=
  .obj [("name", .str r.name), ("checksum", .str r.checksum), ("passed", .bool r.passed),
    ("failures", .ofList Finding.toJson r.failures), ("diagnostics", r.diagnosis.toJson)]

/-- The report in a format. -/
def outcome (colors : Bool) (format : Format) : Outcome where
  text :=
    match format with
    | .text => "\n".intercalate (r.lines colors)
    | .json | .yaml => format.render r.toJson
  success := r.passed

end CheckReport

end Moore
