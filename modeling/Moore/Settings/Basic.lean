import Moore.Format

/-
# Settings

What a user can set: the checks that a machine has to pass, how results are printed, and
how a session keeps its history.
-/

namespace Moore

/-- The checks that a machine has to pass. -/
structure CheckRules where
  /-- The conditions under which a state is left do not overlap and leave no gap. -/
  perState : Bool := true
  /-- The conditions of all transitions together do not overlap and leave no gap. -/
  wholeSet : Bool := false
  /-- There is a default state. -/
  requireDefault : Bool := true
  /-- Every state that is left is entered, and every one that is entered is left. -/
  reachability : Bool := true
  deriving DecidableEq, Repr

/-- When output is painted. -/
inductive ColorMode where
  | auto
  | always
  | never
  deriving DecidableEq, Repr

namespace ColorMode

def names : List (String × ColorMode) :=
  [("auto", auto), ("always", always), ("never", never)]

def name : ColorMode → String
  | auto => "auto"
  | always => "always"
  | never => "never"

end ColorMode

structure OutputSettings where
  format : Format := .text
  color : ColorMode := .auto
  deriving DecidableEq, Repr

structure SessionSettings where
  /-- The file of the history, if it is not the usual one. -/
  historyFile : Option String := none
  /-- How many lines the history keeps. -/
  maxHistory : Nat := 1000
  deriving DecidableEq, Repr

structure Settings where
  rules : CheckRules := {}
  output : OutputSettings := {}
  session : SessionSettings := {}
  deriving DecidableEq, Repr

/-- Refuses settings that cannot be met together; gives the reason. -/
def Settings.validate (s : Settings) : Except String Unit :=
  if s.rules.wholeSet && !s.rules.perState then
    .error "whole_set_checks requires per_state_checks"
  else if s.session.maxHistory = 0 then .error "repl.max_history must be greater than 0"
  else .ok ()

end Moore
