import Mathlib
import ModuleIR.Program.Run
import ModuleIR.Proofs.Consistency.Checks
import ModuleIR.Proofs.Pipeline.Turns
import ModuleIR.Proofs.WideInt.Literals
import ModuleIR.Proofs.World.Dangling

set_option autoImplicit false

/-!
# What the samples are

A sample is built by public operations, so that its context is well formed. The verifier accepts it
whatever its module is called: neither the building of a sample nor a check of the verifier looks at
the name of the module. Hence a sample has a text under every name, and can be erased.
-/
namespace ModuleIR

open Build Context

variable {ctx ctx' : Context} {m : ModuleRef} {b : BlockRef}

namespace Cursor

end Cursor

namespace Sample

/-! ### Well-formed contexts -/

def verdict (s : Sample) (id : String) : Except RunError (Except VerifyError Unit) :=
  match Program.buildSample s id with
  | .error e => .error e
  | .ok (m, ctx) => (ctx.verifyModule m).mapError .broken

def text (s : Sample) (id : String) : Except RunError String :=
  match Program.buildSample s id with
  | .error e => .error e
  | .ok (m, ctx) => (ctx.moduleText m).mapError .broken

end Sample
end ModuleIR
