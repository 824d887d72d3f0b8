import Moore.Settings.Basic

/-
# Settings from the environment

Variables of the environment override settings; values that mean nothing are passed over.
The environment also decides about colours in automatic mode, and where the history is kept
by default.
-/

namespace Moore

/-- The variables of the environment. -/
abbrev Environment := String → Option String

namespace Environment

/-- The variables that matter. -/
def variableNames : List String :=
  ["FSMHDL_CONFIG", "FSMHDL_PER_STATE_CHECKS", "FSMHDL_WHOLE_SET_CHECKS",
    "FSMHDL_REQUIRE_DEFAULT", "FSMHDL_FORMAT", "FSMHDL_COLOR", "FSMHDL_HISTORY",
    "CLICOLOR", "CLICOLOR_FORCE", "NO_COLOR", "HOME"]

variable (env : Environment)

/-- Reads a word for yes or no, in any case. -/
def flag? (word : String) : Option Bool :=
  let word := Text.lowerAscii word
  if ["1", "true", "yes", "on"].contains word then some true
  else if ["0", "false", "no", "off"].contains word then some false
  else none

/-- The flag that a variable holds; without one, the value `old`. -/
def flagOr (variableName : String) (old : Bool) : Bool :=
  ((env variableName).bind flag?).getD old

def rules (old : CheckRules) : CheckRules where
  perState := env.flagOr "FSMHDL_PER_STATE_CHECKS" old.perState
  wholeSet := env.flagOr "FSMHDL_WHOLE_SET_CHECKS" old.wholeSet
  requireDefault := env.flagOr "FSMHDL_REQUIRE_DEFAULT" old.requireDefault
  reachability := old.reachability

/-- Reads a colour mode: its name, or a word for always or never. -/
def colorMode? (word : String) : Option ColorMode :=
  (ColorMode.names.lookup (Text.lowerAscii word)).or
    ((flag? word).map fun on => if on then .always else .never)

def output (old : OutputSettings) : OutputSettings where
  format := ((env "FSMHDL_FORMAT").bind fun word => (Format.parse word).toOption).getD old.format
  color := ((env "FSMHDL_COLOR").bind colorMode?).getD old.color

def session (old : SessionSettings) : SessionSettings :=
  { old with historyFile := (env "FSMHDL_HISTORY").or old.historyFile }

/-- The settings with what the environment overrides. -/
def override (old : Settings) : Settings where
  rules := env.rules old.rules
  output := env.output old.output
  session := env.session old.session

/-- Whether a variable holds anything but `0`, if it is there. -/
def isOn (variableName : String) : Option Bool :=
  (env variableName).map (· ≠ "0")

/-- Whether output is painted, on a terminal or elsewhere. -/
def colors (mode : ColorMode) (terminal : Bool) : Bool :=
  match mode with
  | .always => true
  | .never => false
  | .auto =>
    if env.isOn "CLICOLOR_FORCE" = some true then true
    else if (env "NO_COLOR").isSome then false
    else (env.isOn "CLICOLOR").getD true && terminal

/-- The file of a name in a directory. -/
def joined (directory name : String) : String :=
  if directory = "" || directory.toList.getLast? = some '/' then directory ++ name
  else directory ++ "/" ++ name

/-- Where the history is kept. -/
def historyPath (s : SessionSettings) : String :=
  match s.historyFile with
  | some path => path
  | none => joined ((env "HOME").getD "") ".fsmhdl_history"

end Environment

end Moore
