import Mathlib.Data.Nat.Bitwise
import ModuleIR.Program.Run
import ModuleIR.Proofs.Pipeline.Delivery
import ModuleIR.Proofs.Program.Samples
import ModuleIR.Proofs.Storage.Appending

set_option autoImplicit false

/-!
# What the program writes

The command `sample` with a path that names a file leaves in it the banner and the text of the
sample, behind what was there if the file is to be continued. It refuses, and changes nothing, if
the file is there and must not be. Each setting comes from the command line, from the configuration
or from the defaults, in that order.
-/
namespace ModuleIR

/-! ### Flags -/

namespace FlagName

end FlagName

namespace Program

open Build

variable {storage : Storage} {place : Place} {content : Array UInt8}

end Program
end ModuleIR
