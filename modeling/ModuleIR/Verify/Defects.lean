import ModuleIR.Arena.Scope

set_option autoImplicit false

/-!
# Defects of functions and modules

What can only be judged once a function is complete: blocks without terminator, branches that leave
the function, returns made in detached blocks, operands of another function or module, and the
linkage of declarations. The search stops at the first defect.
-/
namespace ModuleIR
namespace Context

def returnFits (ctx : Context) (expected : TypeRef) (value : Option ValueRef) : Checked Bool := do
  match value with
  | none => return (← ctx.shape expected).isVoid
  | some v => return (← ctx.valueType v) = expected

def allInside (ctx : Context) (f : FunctionRef) : List BlockRef → Checked Bool
  | [] => return true
  | b :: rest => do
    if (← ctx.block b).parent = some f then ctx.allInside f rest else return false

def operationDefect? (ctx : Context) (f : FunctionRef) (expected : TypeRef) (label : String)
    (operation : Operation) : Checked (Option Defect) := do
  match operation with
  | .ret value =>
    if ← ctx.returnFits expected value then return none
    else return some (.returnType label (← ctx.describeType expected))
  | .call .. => return none
  | _ =>
    if ← ctx.allInside f operation.successors then return none
    else return some (.branchLeaves label)

def instructionDefect? (ctx : Context) (m : ModuleRef) (f : FunctionRef) (expected : TypeRef)
    (label : String) : List InstructionRef → Checked (Option Defect)
  | [] => return none
  | i :: rest => do
    let operation ← ctx.operation i
    match ← ctx.firstScopeFault m (some f) true operation.operands with
    | some fault => return some (.blockOperand label fault)
    | none =>
      match ← ctx.operationDefect? f expected label operation with
      | some defect => return some defect
      | none => ctx.instructionDefect? m f expected label rest

def blockDefect? (ctx : Context) (m : ModuleRef) (f : FunctionRef) (expected : TypeRef)
    (b : BlockRef) : Checked (Option Defect) := do
  let record ← ctx.block b
  let label := record.name.getD "<unnamed>"
  if record.instructions.isEmpty then return some (.emptyBlock label)
  match ← ctx.terminator? b with
  | none => return some (.unterminated label)
  | some _ => ctx.instructionDefect? m f expected label record.instructions

def bodyDefect? (ctx : Context) (m : ModuleRef) (f : FunctionRef) (expected : TypeRef) :
    List BlockRef → Checked (Option Defect)
  | [] => return none
  | b :: rest => do
    match ← ctx.blockDefect? m f expected b with
    | some defect => return some defect
    | none => ctx.bodyDefect? m f expected rest

def functionDefect? (ctx : Context) (f : FunctionRef) : Checked (Option Defect) := do
  let record ← ctx.function f
  if record.blocks.isEmpty then
    if record.linkage.validForDeclaration then return none
    else return some (.declarationLinkage record.linkage.keyword)
  else
    let (expected, _) ← ctx.signature record.signature
    ctx.bodyDefect? record.module f expected record.blocks

def globalDefect? (ctx : Context) (m : ModuleRef) (g : GlobalRef) : Checked (Option Defect) := do
  let record ← ctx.global g
  match record.initializer with
  | none =>
    if record.linkage.validForDeclaration then return none
    else return some (.globalLinkage record.linkage.keyword)
  | some init => return (← ctx.scopeFault init.value m none true).map .initializer

def verifyFunction (ctx : Context) (f : FunctionRef) : Checked (Except VerifyError Unit) := do
  match ← ctx.functionDefect? f with
  | some defect => return .error ⟨← ctx.functionName f, defect⟩
  | none => return .ok ()

def verifyGlobals (ctx : Context) (m : ModuleRef) :
    List GlobalRef → Checked (Except VerifyError Unit)
  | [] => return .ok ()
  | g :: rest => do
    match ← ctx.globalDefect? m g with
    | some defect => return .error ⟨(← ctx.valueName g.value).getD "", defect⟩
    | none => ctx.verifyGlobals m rest

def verifyFunctions (ctx : Context) : List FunctionRef → Checked (Except VerifyError Unit)
  | [] => return .ok ()
  | f :: rest => do
    match ← ctx.verifyFunction f with
    | .error e => return .error e
    | .ok () => ctx.verifyFunctions rest

/-- Checks a module: its globals, then its functions. -/
def verifyModule (ctx : Context) (m : ModuleRef) : Checked (Except VerifyError Unit) := do
  let record ← ctx.module m
  match ← ctx.verifyGlobals m record.globals with
  | .error e => return .error e
  | .ok () => ctx.verifyFunctions record.functions

end Context
end ModuleIR
