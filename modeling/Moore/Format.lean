import Moore.Json.Writer
import Moore.Text.Case
import Moore.Yaml.Writer

/-
# Output formats

A report or a model is printed as text, as JSON or as YAML.  What has no text form of its
own is printed as JSON instead.
-/

namespace Moore

inductive Format where
  | text
  | json
  | yaml
  deriving DecidableEq, Repr

namespace Format

/-- The names of the formats. -/
def names : List (String × Format) :=
  [("text", text), ("json", json), ("yaml", yaml)]

/-- The name of a format. -/
def name : Format → String
  | text => "text"
  | json => "json"
  | yaml => "yaml"

/-- Reads the name of a format in any case; `yml` is a short form. -/
def parse (word : String) : Except String Format :=
  let word := Text.lowerAscii word
  match (names ++ [("yml", yaml)]).lookup word with
  | some format => .ok format
  | none => .error s!"unknown output format '{word}'"

/-- The text of a value. -/
def render : Format → Json → String
  | yaml, j => Yaml.write j
  | text, j | json, j => j.pretty

end Format

end Moore
