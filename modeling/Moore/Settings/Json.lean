import Moore.Json.Basic
import Moore.Settings.Basic

/-
# Settings as JSON

The document form of settings, with every part written out.
-/

namespace Moore

def CheckRules.toJson (r : CheckRules) : Json :=
  .obj [("per_state_checks", .bool r.perState), ("whole_set_checks", .bool r.wholeSet),
    ("require_default", .bool r.requireDefault), ("reachability", .bool r.reachability)]

def OutputSettings.toJson (s : OutputSettings) : Json :=
  .obj [("format", .str s.format.name), ("color", .str s.color.name)]

def SessionSettings.toJson (s : SessionSettings) : Json :=
  .obj [("history_file", (s.historyFile.map Json.str).getD .null),
    ("max_history", .int s.maxHistory)]

def Settings.toJson (s : Settings) : Json :=
  .obj [("analysis", s.rules.toJson), ("output", s.output.toJson), ("repl", s.session.toJson)]

end Moore
