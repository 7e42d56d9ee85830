import ModuleIR.Program.Run

set_option autoImplicit false

/-!
# The program on real files

Reads the arguments, and the configuration file when they name one, and writes what the run prints
to standard output or to the file asked for.
-/
namespace ModuleIR.Program

def usage : String :=
  "Usage: irf [-v] sample <hello|answer|declare> [OPTIONS]\n       irf [-v] list\n"

def report (message : String) : IO UInt32 := do
  IO.eprintln s!"Error: {message}"
  return 1

def reportError (e : RunError) : IO UInt32 := do
  let _ ← report e.message
  return e.exit.toUInt32

def readConfig (a : SampleArguments) : IO (Except ConfigError Config) := do
  match a.config with
  | none => return .ok {}
  | some path =>
    try
      match Config.read? (← IO.FS.readFile path) with
      | some config => return .ok config
      | none => return .error (.parsing path)
    catch _ => return .error (.reading path)

def openMode (flags : OpenFlags) : IO.FS.Mode :=
  if flags.contains .excl then .writeNew
  else if flags.contains .append then .append
  else .write

def fill (path : String) (handle : IO.FS.Handle) (content : ByteArray) : IO UInt32 := do
  try
    handle.write content
    handle.flush
    return 0
  catch _ =>
    reportError (.writing path)

def writeOutput (path : String) (flags : OpenFlags) (content : ByteArray) : IO UInt32 := do
  if Stream.isStandardOutput path then
    (← IO.getStdout).write content
    return 0
  try
    let handle ← IO.FS.Handle.mk path (openMode flags)
    fill path handle content
  catch e =>
    report s!"cannot open output: {path}: {e}"

def runSampleFiles (a : SampleArguments) : IO UInt32 := do
  match ← readConfig a with
  | .error e => reportError (.config e)
  | .ok config =>
    let options := SampleOptions.merge config a
    match printed a.sample options with
    | .error e => reportError e
    | .ok content => writeOutput a.output options.flags ⟨content⟩

def execute : Invocation → IO UInt32
  | .misuse => do
    IO.eprint usage
    return 2
  | .help => do
    IO.print usage
    return 0
  | .version => do
    IO.print versionText
    return 0
  | .list => do
    IO.print listing
    return 0
  | .sample a => runSampleFiles a

end ModuleIR.Program

def main (arguments : List String) : IO UInt32 :=
  ModuleIR.Program.execute (ModuleIR.Invocation.read arguments)
