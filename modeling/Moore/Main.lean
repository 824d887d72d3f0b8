import Moore.Program

/-
# The executable

Connects a run of the program with the world: arguments, environment, files and the standard
streams.  A session reads its lines one at a time, so that every answer is printed before the
next line is read.
-/

namespace Moore.Executable

/-- The fault that an error of the file system amounts to. -/
def faultOf (e : IO.Error) : FileFault :=
  match e with
  | .noFileOrDirectory .. => .missing
  | .permissionDenied .. => .denied
  | .inappropriateType _ 21 _ => .isDirectory
  | .inappropriateType .. => .notDirectory
  | e => .ofContent "Other" (toString e)

/-- The text of a file. -/
def readText (path : String) : IO (Except FileFault String) := do
  try
    let bytes ← IO.FS.readBinFile path
    match String.fromUTF8? bytes with
    | some text => return .ok text
    | none => return .error .notText
  catch e => return .error (faultOf e)

/-- The file system, as far as a run looks at it: the given paths. -/
def readFiles (paths : List String) : IO Files := do
  let found ← paths.mapM fun path => return (path, ← readText path)
  return fun path => (found.lookup path).getD (.error .missing)

/-- The environment, as far as a run looks at it. -/
def readEnvironment : IO Environment := do
  let found ← Environment.variableNames.mapM fun name => return (name, ← IO.getEnv name)
  return fun name => (found.lookup name).join

/-- Holds a session on the lines of the input. -/
partial def hold (settings : Settings) (colors : Bool) (input output : IO.FS.Stream)
    (s : Session) : IO Unit := do
  let line ← input.getLine
  if line.isEmpty then
    output.putStr Session.farewell
    output.flush
  else
    let files ← readFiles (Session.paths line)
    let (text, next) := s.respond files settings colors line
    output.putStr text
    output.flush
    if let some s := next then hold settings colors input output s

/-- Prints what a run leaves behind. -/
def finish (r : Run) : IO UInt32 := do
  (← IO.getStdout).putStr r.output
  (← IO.getStderr).putStr r.errors
  return r.exit.toUInt32

/-- Runs the program. -/
def run (args : List String) : IO UInt32 := do
  let env ← readEnvironment
  match Invocation.parse env args with
  | .error i => finish (.interrupted i)
  | .ok i =>
    match i.settings (← readFiles i.config.toList) env with
    | .error e => finish (.unsettled e)
    | .ok settings =>
      let output ← IO.getStdout
      let colors := env.colors settings.output.color (← output.isTty)
      match i.command with
      | some c => finish (.ofCommand (← readFiles c.paths) settings colors c)
      | none =>
        output.putStr (Session.greeting colors)
        output.flush
        hold settings colors (← IO.getStdin) output {}
        return 0

end Moore.Executable

def main (args : List String) : IO UInt32 :=
  Moore.Executable.run args
