import ModuleIR.Arena.Handle
import ModuleIR.WideInt.Literal

set_option autoImplicit false

/-!
# Violations and errors

A violation is a use of the interface that breaks its contract; it ends the work on a context. A
verification error is the recoverable finding that a module or function is not well formed. Both are
kept as causes; their wording is in `message`.
-/
namespace ModuleIR

inductive EntityKind where
  | type
  | value
  | block
  | module
  deriving DecidableEq, Repr, Inhabited

def EntityKind.text : EntityKind → String
  | type => "type"
  | value => "value"
  | block => "basic block"
  | module => "module"

/-- How a message refers to an operand: by its name, or by its position in the arena. -/
structure OperandLabel where
  name : Option String
  index : Nat
  deriving DecidableEq, Repr, Inhabited

def OperandLabel.text (l : OperandLabel) : String :=
  match l.name with
  | some name => s!"'{name}'"
  | none => s!"#{l.index}"

inductive ScopeFault where
  | otherModule (operand : OperandLabel) (owner user : String)
  | otherFunction (operand : OperandLabel) (owner user : String)
  | outsideFunction (operand : OperandLabel) (owner : String)
  | detached (operand : OperandLabel)
  deriving DecidableEq, Repr, Inhabited

def ScopeFault.message : ScopeFault → String
  | otherModule operand owner user =>
    s!"operand {operand.text} refers to module '{owner}', used in module '{user}'"
  | otherFunction operand owner user =>
    s!"operand {operand.text} of function '{owner}' used in function '{user}'"
  | outsideFunction operand owner =>
    s!"operand {operand.text} of function '{owner}' used outside any function"
  | detached operand => s!"operand {operand.text} is defined in a detached block"

inductive Defect where
  | declarationLinkage (keyword : String)
  | globalLinkage (keyword : String)
  | emptyBlock (block : String)
  | unterminated (block : String)
  | blockOperand (block : String) (fault : ScopeFault)
  | initializer (fault : ScopeFault)
  | returnType (block expected : String)
  | branchLeaves (block : String)
  deriving DecidableEq, Repr, Inhabited

def Defect.message : Defect → String
  | declarationLinkage keyword => s!"declaration has invalid linkage '{keyword}'"
  | globalLinkage keyword => s!"global declaration has invalid linkage '{keyword}'"
  | emptyBlock block => s!"block '{block}' is empty"
  | unterminated block => s!"block '{block}' does not end in a terminator"
  | blockOperand block fault => s!"in block '{block}': {fault.message}"
  | initializer fault => fault.message
  | returnType block expected =>
    s!"return in block '{block}' does not match return type {expected}"
  | branchLeaves block => s!"branch in block '{block}' leaves the function"

structure VerifyError where
  entity : String
  defect : Defect
  deriving DecidableEq, Repr, Inhabited

def VerifyError.message (e : VerifyError) : String :=
  s!"Verification failed in '{e.entity}': {e.defect.message}"

/-- A breach of the interface's contract. -/
inductive Violation where
  /-- A handle of another context. -/
  | foreign (kind : EntityKind) (owner user : ContextId)
  | erasedValue (index : Nat)
  | erasedBlock (index : Nat)
  | erasedModule (index : Nat)
  | erasedTwice (index : Nat)
  | integerWidth (bits : Nat)
  | literalWidth (bits : Nat)
  | numeralRadix (radix : Nat)
  | pointee (type : String)
  | arrayElement (type : String)
  | parameterType (type : String)
  | elementBase (type : String)
  | elementIndex (position : Nat)
  | elementStep (position : Nat) (type : String)
  | constantName
  | voidName (name : String)
  | initializerType (actual expected : String)
  | initializerScope (name : String) (fault : ScopeFault)
  | globalPosition (module : String)
  | argumentIndex (index count : Nat)
  | positionWithoutParent
  | blockPlaced (function : String)
  | blockPosition (function : String)
  | insertionScope (function : String) (fault : ScopeFault)
  | afterTerminator (opcode block terminator : String)
  | operandScope (fault : ScopeFault)
  | notCallable (type : String)
  | argumentCount (signature : String) (expected actual : Nat)
  | argumentType (position : Nat) (actual expected : String)
  | variadicType (position : Nat) (type : String)
  | callAcrossModules (caller function owner : String)
  | missingReturnValue (function expected : String)
  | returnType (actual function expected : String)
  | conditionType (type : String)
  | noInsertionPoint
  | brokenModule (error : VerifyError)
  | brokenFunction (error : VerifyError)
  /-- A handle or table entry that does not fit the arena it belongs to. -/
  | inconsistent (what : String)
  deriving DecidableEq, Repr, Inhabited

def Violation.message : Violation → String
  | foreign kind owner user =>
    s!"{kind.text} belongs to context {owner.text} but was used with context {user.text}"
  | erasedValue index => s!"use of value #{index} after its module was erased"
  | erasedBlock index => s!"use of basic block #{index} after its module was erased"
  | erasedModule index => s!"use of module #{index} after it was erased"
  | erasedTwice index => s!"module #{index} erased twice"
  | integerWidth bits => s!"integer bit width {bits} out of range 1..={WideInt.maxBits}"
  | literalWidth bits => LiteralError.widthMessage bits
  | numeralRadix radix => s!"radix {radix} out of range"
  | pointee type => s!"pointer to {type} is not a valid type"
  | arrayElement type => s!"array of {type} is not a valid type"
  | parameterType type => s!"invalid parameter type {type}"
  | elementBase type => s!"getelementptr base must be a pointer, got {type}"
  | elementIndex position => s!"getelementptr index {position} is not an integer constant"
  | elementStep position type =>
    s!"getelementptr index {position} steps into non-aggregate type {type}"
  | constantName => "constant values cannot be named"
  | voidName name => s!"cannot assign name '{name}' to a void value"
  | initializerType actual expected =>
    s!"initializer of type {actual} does not match global type {expected}"
  | initializerScope name fault => s!"initializer of global '{name}': {fault.message}"
  | globalPosition owner => s!"insert_before global does not belong to module '{owner}'"
  | argumentIndex index count => s!"argument index {index} out of range, function has {count}"
  | positionWithoutParent => "insert_before given for a block without parent"
  | blockPlaced function => s!"block already belongs to function '{function}'"
  | blockPosition function => s!"insert_before block does not belong to function '{function}'"
  | insertionScope function fault =>
    s!"cannot insert block into function '{function}': {fault.message}"
  | afterTerminator opcode block terminator =>
    s!"cannot append '{opcode}' to block '{block}' after its terminator '{terminator}'"
  | operandScope fault => fault.message
  | notCallable type => s!"called value of type {type} is not a function pointer"
  | argumentCount signature expected actual =>
    s!"call to {signature} expects {expected} arguments, got {actual}"
  | argumentType position actual expected =>
    s!"call argument {position} has type {actual}, parameter expects {expected}"
  | variadicType position type =>
    s!"variadic call argument {position} has invalid type {type}"
  | callAcrossModules caller function owner =>
    s!"call from module '{caller}' to function '{function}' of module '{owner}'"
  | missingReturnValue function expected =>
    s!"ret void in function '{function}' returning {expected}"
  | returnType actual function expected =>
    s!"ret of type {actual} in function '{function}' returning {expected}"
  | conditionType type => s!"branch condition must be i1, got {type}"
  | noInsertionPoint => "IrBuilder has no insertion point"
  | brokenModule error => "Broken module found, compilation aborted!\n" ++ error.message
  | brokenFunction error => "Broken function found, compilation aborted!\n" ++ error.message
  | inconsistent what => s!"internal error: entered unreachable code: {what}"

/-- A reading that may end in a violation. -/
abbrev Checked (α : Type) : Type := Except Violation α

namespace Checked

variable {α β : Type}

@[simp] theorem pure_eq (a : α) : (pure a : Checked α) = .ok a := rfl

@[simp] theorem throw_eq (v : Violation) : (throw v : Checked α) = .error v := rfl

@[simp] theorem ok_bind (a : α) (next : α → Checked β) :
    ((Except.ok a : Checked α) >>= next) = next a := rfl

@[simp] theorem error_bind (v : Violation) (next : α → Checked β) :
    ((Except.error v : Checked α) >>= next) = .error v := rfl

@[simp] theorem map_ok (f : α → β) (a : α) :
    (f <$> (Except.ok a : Checked α)) = .ok (f a) := rfl

@[simp] theorem map_error (f : α → β) (v : Violation) :
    (f <$> (Except.error v : Checked α)) = .error v := rfl

@[simp] theorem bind_error_eq_ok {step : Checked α} {violation : α → Violation} {b : β} :
    (step >>= fun a => (Except.error (violation a) : Checked β)) = .ok b ↔ False := by
  cases step <;> simp

theorem bind_eq_ok {step : Checked α} {next : α → Checked β} {b : β} :
    (step >>= next) = .ok b ↔ ∃ a, step = .ok a ∧ next a = .ok b := by
  cases step <;> simp

end Checked

end ModuleIR
