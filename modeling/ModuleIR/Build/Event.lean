import ModuleIR.Attribute.OpenFlags
import ModuleIR.WideInt.Numeral

set_option autoImplicit false

/-!
# Events

What building, checking and writing report as they go. An event has a level and a wording.
-/
namespace ModuleIR

inductive Level where
  | debug
  | warn
  deriving DecidableEq, Repr, Inhabited

inductive Event where
  | literalTruncated (text : String) (value : WideInt)
  | moduleCreated (name : String)
  | moduleErased (name : String) (functions globals : Nat)
  | globalCreated (name module : String)
  | functionCreated (name module : String)
  | blockInserted (name function : String) (position : Nat)
  | functionVerified (name : String) (blocks : Nat)
  | moduleVerified (name : String)
  | passStarted (pass module : String)
  | passFinished (pass : String) (modified : Bool)
  | printFailed (module reason : String)
  | sampleStarted (name : String)
  | streamOpened (path : String) (flags : OpenFlags)
  | standardOutputOpened
  | streamClosed (path : String)
  | closeFailed (path reason : String)
  | openFailed (message : String)
  deriving DecidableEq, Repr

namespace Event

def level : Event → Level
  | literalTruncated .. | printFailed .. | closeFailed .. | openFailed _ => .warn
  | _ => .debug

def message : Event → String
  | literalTruncated text value =>
    s!"integer literal '{text}' does not fit in i{value.bits}, truncated to {value.decimal}"
  | moduleCreated name => s!"creating module '{name}'"
  | moduleErased name functions globals =>
    s!"erasing module '{name}' ({functions} functions, {globals} globals)"
  | globalCreated name owner => s!"created global '{name}' in module '{owner}'"
  | functionCreated name owner => s!"created function '{name}' in module '{owner}'"
  | blockInserted name function position =>
    s!"inserted block '{name}' into function '{function}' at position {position}"
  | functionVerified name blocks => s!"verified function '{name}' ({blocks} blocks)"
  | moduleVerified name => s!"module '{name}' verified"
  | passStarted pass target => s!"running '{pass}' on module '{target}'"
  | passFinished pass modified => s!"finished '{pass}', modified: {modified}"
  | printFailed target reason => s!"failed to print module '{target}': {reason}"
  | sampleStarted name => s!"building sample '{name}'"
  | streamOpened path flags => s!"opened '{path}' with flags {flags.describe}"
  | standardOutputOpened => "opened standard output"
  | streamClosed path => s!"closed '{path}'"
  | closeFailed path reason => s!"error closing '{path}': {reason}"
  | openFailed text => text

def line (e : Event) : String :=
  (match e.level with
    | .debug => "debug: "
    | .warn => "warn: ") ++ e.message

end Event
end ModuleIR
