import Moore.File
import Moore.Settings.Environment
import Moore.Settings.Yaml
import Moore.Text.Quoted

/-
# Loading settings

Settings start at their defaults, take what a file says, if one is named, then what the
environment says, and have to be consistent in the end.
-/

namespace Moore

/-- Why there are no settings. -/
inductive SettingsError where
  | unreadable (path : String) (fault : FileFault)
  | malformed (path : String) (error : Yaml.DecodeError)
  /-- The settings cannot be met together. -/
  | invalid (reason : String)

namespace SettingsError

/-- The kind of the error. -/
def kind : SettingsError → String
  | unreadable .. => "IoError"
  | malformed .. => "ParseError"
  | invalid _ => "ValidationError"

def message : SettingsError → String
  | unreadable path fault => s!"failed to read config file '{path}': {fault.message}"
  | malformed path error => s!"failed to parse config file '{path}': {error.message}"
  | invalid reason => s!"configuration validation failed: {reason}"

/-- The parts of the error, shown as values. -/
def parts : SettingsError → List String
  | unreadable path fault => [Text.quoted path, fault.shown]
  | malformed path error => [Text.quoted path, Text.quoted error.message]
  | invalid reason => [Text.quoted reason]

/-- The error shown as a value. -/
def shown (e : SettingsError) : String :=
  e.kind ++ "(" ++ ", ".intercalate e.parts ++ ")"

end SettingsError

namespace Settings

/-- Reads a settings file. -/
def ofFile (files : Files) (path : String) : Except SettingsError Settings := do
  let text ← (files path).mapError (.unreadable path)
  (Yaml.decodeText Yaml.Decoder.settings text).mapError (.malformed path)

/-- The settings of a run, from the named file and from the environment. -/
def load (files : Files) (env : Environment) (path : Option String) :
    Except SettingsError Settings := do
  let settings ← match path with
    | some path => ofFile files path
    | none => pure {}
  let settings := env.override settings
  settings.validate.mapError .invalid
  return settings

end Settings

end Moore
