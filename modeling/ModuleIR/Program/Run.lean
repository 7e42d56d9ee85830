import ModuleIR.Pipeline.Pass
import ModuleIR.Program.Arguments
import ModuleIR.Program.Config

set_option autoImplicit false

/-!
# Running the program

`sample` builds a sample module, checks it, and prints it to a stream. The settings come from the
command line first, then from the configuration file, then from the defaults.
-/
namespace ModuleIR

structure SampleOptions where
  moduleId : String
  banner : String
  flags : OpenFlags
  verify : Bool
  deriving DecidableEq, Repr, Inhabited

namespace SampleOptions

/-- The command line wins over the configuration; flags add up. -/
def merge (config : Config) (a : SampleArguments) : SampleOptions where
  moduleId := (a.moduleId.or config.moduleId).getD a.sample.name
  banner := a.banner.getD config.banner
  flags :=
    let exclusive := if a.excl then config.flags.union .excl else config.flags
    if a.append then exclusive.union .append else exclusive
  verify := config.verify && !a.noVerify

end SampleOptions

inductive RunError where
  | config (error : ConfigError)
  /-- A literal in a sample is no integer. -/
  | literal (error : LiteralError)
  | cannotOpen (error : OpenError)
  | writing (path : String)
  /-- The contract of the interface is broken. -/
  | broken (violation : Violation)
  deriving DecidableEq, Repr, Inhabited

namespace RunError

def message : RunError → String
  | config error => error.message
  | literal error => error.message
  | cannotOpen error => s!"cannot open output: {error.message}"
  | writing path => s!"error writing '{path}'"
  | broken violation => violation.message

def exit : RunError → Nat
  | broken _ => 101
  | _ => 1

end RunError

/-- How a run ends: the exit status, the storage, and the error of a failed run. -/
structure RunResult where
  exit : Nat
  storage : Storage
  error : Option RunError := none
  deriving DecidableEq, Repr

def RunResult.failed (storage : Storage) (error : RunError) : RunResult :=
  { exit := error.exit, storage, error := some error }

namespace Program

def passes (options : SampleOptions) : List (Pass Sink) :=
  (if options.verify then [.verify] else []) ++ [.print Sink.outlet options.banner]

def buildSample (sample : Sample) (moduleId : String) : Except RunError (ModuleRef × Context) :=
  match (sample.build moduleId (Context.new ⟨1⟩)).result with
  | .ok (.ok m, ctx) => .ok (m, ctx)
  | .ok (.error e, _) => .error (.literal e)
  | .error violation => .error (.broken violation)

def runPasses (options : SampleOptions) (m : ModuleRef) (ctx : Context) (sink : Sink) :
    Except RunError (Sink × Context) :=
  match (Pipeline.run m (passes options) sink ctx).result with
  | .ok ((_, written), last) => .ok (written, last)
  | .error violation => .error (.broken violation)

def printed (sample : Sample) (options : SampleOptions) : Except RunError (Array UInt8) := do
  let (m, ctx) ← buildSample sample options.moduleId
  let (written, _) ← runPasses options m ctx ⟨⟨"-", .standardOutput, false⟩, .initial⟩
  return written.storage.standardOutput

/-- The sample is built before the output is opened. The module is erased at the end, unless a write
has failed. -/
def runSample (storage : Storage) (a : SampleArguments) (options : SampleOptions) : RunResult :=
  match buildSample a.sample options.moduleId with
  | .error e => .failed storage e
  | .ok (m, ctx) =>
    match Stream.openOrInert storage a.output options.flags with
    | (_, opened, some e, _) => .failed opened (.cannotOpen e)
    | (stream, opened, none, _) =>
      match runPasses options m ctx ⟨stream, opened⟩ with
      | .error e => .failed opened e
      | .ok (sink, last) =>
        if sink.stream.close.1.failed then .failed sink.storage (.writing a.output)
        else match (Build.eraseModule m last).result with
          | .error violation => .failed sink.storage (.broken violation)
          | .ok _ => { exit := 0, storage := sink.storage }

def loadConfig (storage : Storage) (a : SampleArguments) : Except ConfigError Config :=
  match a.config with
  | none => .ok {}
  | some path => Config.load storage path

def say (storage : Storage) (text : String) : Storage :=
  { storage with standardOutput := storage.standardOutput ++ text.toUTF8.toList }

def versionText : String := "irf 0.1.0\n"

def listing : String := String.join (Sample.all.map fun s => s.name ++ "\n")

def run (arguments : List String) (storage : Storage) : RunResult :=
  match Invocation.read arguments with
  | .misuse => { exit := 2, storage }
  | .help => { exit := 0, storage }
  | .version => { exit := 0, storage := say storage versionText }
  | .list => { exit := 0, storage := say storage listing }
  | .sample a =>
    match loadConfig storage a with
    | .error e => .failed storage (.config e)
    | .ok config => runSample storage a (SampleOptions.merge config a)

end Program
end ModuleIR
