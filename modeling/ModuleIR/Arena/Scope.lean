import ModuleIR.Arena.Context

set_option autoImplicit false

/-!
# Scope of operands

An operand is tied to a module, to a function, to a detached block or to nothing. Globals and
functions, also behind pointer arithmetic, may be used in their own module only; arguments and
instructions in their own function only.
-/
namespace ModuleIR

/-- What keeps an operand alive. -/
inductive Anchor where
  /-- A uniqued constant without ties to a module. -/
  | free
  | module (module : ModuleRef)
  | function (function : FunctionRef)
  /-- An instruction of a block that is not in a function yet. -/
  | detached
  deriving DecidableEq, Repr, Inhabited

namespace Context

def anchorWithin (ctx : Context) : Nat → ValueRef → Checked Anchor
  | 0, _ => throw (.inconsistent "getelementptr base behind its user")
  | depth + 1, v => do
    match (← ctx.value v).kind with
    | .global record => return .module record.module
    | .function record => return .module record.module
    | .elementPtr record => ctx.anchorWithin depth record.base
    | .argument record => return .function record.parent
    | .instruction record =>
      match (← ctx.block record.parent).parent with
      | some function => return .function function
      | none => return .detached
    | _ => return .free

/-- The anchor of a value. The base of pointer arithmetic stands before it in the arena, so its
position bounds the chain of bases. -/
def anchor (ctx : Context) (v : ValueRef) : Checked Anchor := ctx.anchorWithin (v.index + 1) v

def operandLabel (ctx : Context) (v : ValueRef) : Checked OperandLabel :=
  return ⟨← ctx.valueName v, v.index⟩

/-- Why `operand` cannot be used in `module`, inside `function` when given. An operand from a
detached block is refused only when `strict`. -/
def scopeFault (ctx : Context) (operand : ValueRef) (module : ModuleRef)
    (function : Option FunctionRef) (strict : Bool) : Checked (Option ScopeFault) := do
  match ← ctx.anchor operand with
  | .free => return none
  | .module owner =>
    if owner = module then return none
    let label ← ctx.operandLabel operand
    let ownerName ← ctx.moduleName owner
    let userName ← ctx.moduleName module
    return some (.otherModule label ownerName userName)
  | .function owner =>
    match function with
    | some user =>
      if owner = user then return none
      let label ← ctx.operandLabel operand
      let ownerName ← ctx.functionName owner
      let userName ← ctx.functionName user
      return some (.otherFunction label ownerName userName)
    | none =>
      let label ← ctx.operandLabel operand
      let ownerName ← ctx.functionName owner
      return some (.outsideFunction label ownerName)
  | .detached =>
    if strict then return some (.detached (← ctx.operandLabel operand)) else return none

def firstScopeFault (ctx : Context) (module : ModuleRef) (function : Option FunctionRef)
    (strict : Bool) : List ValueRef → Checked (Option ScopeFault)
  | [] => return none
  | operand :: rest => do
    match ← ctx.scopeFault operand module function strict with
    | some fault => return some fault
    | none => ctx.firstScopeFault module function strict rest

def terminator? (ctx : Context) (b : BlockRef) : Checked (Option InstructionRef) := do
  match (← ctx.block b).instructions.getLast? with
  | none => return none
  | some last =>
    match (← ctx.value last.value).kind with
    | .instruction record => return if record.operation.isTerminator then some last else none
    | _ => return none

def calleeSignature? (ctx : Context) (callee : ValueRef) : Checked (Option FunctionTypeRef) := do
  match ← ctx.shape (← ctx.valueType callee) with
  | .pointer pointee _ =>
    return if (← ctx.shape pointee).isFunction then some ⟨pointee⟩ else none
  | _ => return none

end Context
end ModuleIR
