import Moore.Checksum
import Moore.Definition.Json
import Moore.Definition.Yaml
import Moore.File
import Moore.Json.Writer
import Moore.Text.Case

/-
# Definitions

A definition is a document together with the machine that it defines.  Documents are read
from JSON or YAML; of a file, the extension tells which.
-/

namespace Moore

/-- Why there is no definition. -/
inductive DefinitionError where
  | document (fault : DocumentFault)
  /-- The extension of a file names no format. -/
  | unknownFormat (path : String)
  /-- A file cannot be read. -/
  | unreadable (fault : FileFault)
  | json (error : Json.DecodeError)
  | yaml (error : Yaml.DecodeError)

namespace DefinitionError

def code : DefinitionError → String
  | document (.model e) => e.code
  | document _ | unknownFormat _ | json _ | yaml _ => "BAD_DEFINITION"
  | unreadable _ => "IO_ERROR"

def message : DefinitionError → String
  | document fault => fault.message
  | unknownFormat path =>
    s!"invalid machine definition: cannot tell the format of '{path}': " ++
      "expected .json, .yaml or .yml"
  | unreadable fault => s!"I/O error: {fault.message}"
  | json e => s!"JSON error: {e.message}"
  | yaml e => s!"YAML error: {e.message}"

/-- Whether the error lies in the shape of the machine as a graph. -/
def isGraph : DefinitionError → Bool
  | document (.model e) => e.isGraph
  | _ => false

/-- Whether the error lies in the text of a condition. -/
def isSyntax : DefinitionError → Bool
  | document (.model e) => e.isSyntax
  | _ => false

end DefinitionError

/-- A document with the machine that it defines. -/
structure Definition where
  document : Document
  world : World

namespace Definition

def ofDocument (document : Document) : Except DefinitionError Definition := do
  let world ← document.build.mapError .document
  return { document, world }

def ofJson (j : Json) : Except DefinitionError Definition := do
  ofDocument (← (Json.decode Json.Decoder.document j).mapError .json)

def ofJsonText (text : String) : Except DefinitionError Definition := do
  ofDocument (← (Json.decodeText Json.Decoder.document text).mapError .json)

def ofYamlText (text : String) : Except DefinitionError Definition := do
  ofDocument (← (Yaml.decodeText Yaml.Decoder.document text).mapError .yaml)

/-- The last part of a path that names a file. -/
def fileName? (path : String) : Option String :=
  match ((path.splitOn "/").filter fun part => part ≠ "" && part ≠ ".").getLast? with
  | some ".." => none
  | name => name

/-- The part of a file name after its last dot, unless the name starts there. -/
def extension? (name : String) : Option String :=
  let extension := (name.toList.reverse.takeWhile (· ≠ '.')).reverse
  if extension.length + 1 < name.length then some (String.ofList extension) else none

/-- Reads the text of a file, in the format that its extension names. -/
def ofFileText (path text : String) : Except DefinitionError Definition :=
  match ((fileName? path).bind extension?).map Text.lowerAscii with
  | some "json" => ofJsonText text
  | some "yaml" | some "yml" => ofYamlText text
  | _ => .error (.unknownFormat path)

/-- Reads a file. -/
def ofFile (files : Files) (path : String) : Except DefinitionError Definition := do
  ofFileText path (← (files path).mapError .unreadable)

def name (d : Definition) : String :=
  d.document.name.getD defaultMachineName

def graph (d : Definition) : Graph :=
  d.world.graph

/-- The canonical text of the document. -/
def canonical (d : Definition) : String :=
  d.document.toJson.compact

/-- The checksum of the canonical text. -/
def checksum (d : Definition) : String :=
  Checksum.text d.canonical

/-- The template model of the machine, under a name of its own or another one. -/
def template (d : Definition) (name : Option String) : Except ModelError TemplateModel :=
  TemplateModel.ofGraph (name.getD d.name) d.graph

end Definition

end Moore
