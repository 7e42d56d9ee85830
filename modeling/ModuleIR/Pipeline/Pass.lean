import ModuleIR.Listing.Modules
import ModuleIR.Pipeline.Outlet
import ModuleIR.Verify.Report

set_option autoImplicit false

/-!
# Passes and pipelines

A pass works on a module or on each function of it that has a body, and answers whether it changed
anything. Passes share a state of their own beside the context, such as the outputs they write to. A
pipeline runs its passes in order; a change reported by one does not stop it.
-/
namespace ModuleIR

inductive Pass (σ : Type) where
  | onModule (name : String) (run : ModuleRef → StateT σ Build Bool)
  | onFunction (name : String) (run : FunctionRef → StateT σ Build Bool)

namespace Pass

variable {σ : Type}

def name : Pass σ → String
  | onModule name _ => name
  | onFunction name _ => name

/-- Runs a function pass on each of the functions that has a body when its turn comes. -/
def runOnFunctions (run : FunctionRef → StateT σ Build Bool) :
    List FunctionRef → StateT σ Build Bool
  | [] => return false
  | f :: rest => do
    let record ← (Build.read (·.function f) : StateT σ Build FunctionRecord)
    if record.blocks.isEmpty then runOnFunctions run rest
    else do
      let modified ← run f
      return (← runOnFunctions run rest) || modified

/-- Runs a pass on a module. A function pass sees the functions that are in the module when it
starts. -/
def run (pass : Pass σ) (m : ModuleRef) : StateT σ Build Bool :=
  match pass with
  | onModule _ run => run m
  | onFunction _ run => do
    let record ← (Build.read (·.module m) : StateT σ Build ModuleRecord)
    runOnFunctions run record.functions

/-- Prints the banner, when there is one, on a line of its own, and the text of the module, and then
flushes. A refusal is reported as an event and does not end the pipeline. -/
def print (outlet : Outlet σ) (banner : String) : Pass σ :=
  onModule "Print module to stream" fun m state => do
    let ctx ← Build.read .ok
    let heading : Listing := if banner.isEmpty then [] else [.text banner, .text "\n"]
    match outlet.publish (heading ++ Listing.module ctx m) state with
    | (.complete, next) => return (false, next)
    | (.refused fault, next) => do
      Build.emit (.printFailed (← Build.read (·.moduleName m)) fault.message)
      return (false, next)
    | (.broken violation, _) => Build.fail violation

def verify : Pass σ :=
  onModule "Module Verifier" fun m => do
    match ← (Build.verifyModule m : StateT σ Build _) with
    | .error e => Build.fail (.brokenModule e)
    | .ok () =>
      Build.emit (.moduleVerified (← (Build.read (·.moduleName m) : StateT σ Build String)))
      return false

def verifyEach : Pass σ :=
  onFunction "Function Verifier" fun f => do
    match ← (Build.verifyFunction f : StateT σ Build _) with
    | .error e => Build.fail (.brokenFunction e)
    | .ok () => return false

def visit (label : String) (modified : Bool) (note : String → σ → σ) : Pass σ :=
  onModule label fun m => do
    let name ← (Build.read (·.moduleName m) : StateT σ Build String)
    modifyGet fun s => (modified, note (label ++ ":" ++ name) s)

def visitEach (label : String) (modified : Bool) (note : String → σ → σ) : Pass σ :=
  onFunction label fun f => do
    let name ← (Build.read (·.functionName f) : StateT σ Build String)
    modifyGet fun s => (modified, note (label ++ ":" ++ name) s)

end Pass

namespace Pipeline

variable {σ : Type}

/-- Runs the passes in order on a module, and answers whether any of them changed something. -/
def run (m : ModuleRef) : List (Pass σ) → StateT σ Build Bool
  | [] => return false
  | pass :: rest => do
    let name ← (Build.read (·.moduleName m) : StateT σ Build String)
    Build.emit (.passStarted pass.name name)
    let modified ← pass.run m
    Build.emit (.passFinished pass.name modified)
    return (← run m rest) || modified

def runTimes (m : ModuleRef) (passes : List (Pass σ)) : Nat → StateT σ Build (List Bool)
  | 0 => return []
  | times + 1 => do
    let modified ← run m passes
    return modified :: (← runTimes m passes times)

end Pipeline
end ModuleIR
