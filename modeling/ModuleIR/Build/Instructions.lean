import ModuleIR.Build.Blocks

set_option autoImplicit false

/-!
# Making instructions

An instruction is made at the end of a block, with all its operands. A block takes no instruction
after its terminator. Operands are checked against the scope of the block's function; in a detached
block that is left to its insertion.
-/
namespace ModuleIR
namespace Context

def checkOperandScope (ctx : Context) (b : BlockRef) (operands : List ValueRef) :
    Checked Unit := do
  match (← ctx.block b).parent with
  | none => return ()
  | some f =>
    let owner := (← ctx.function f).module
    match ← ctx.firstScopeFault owner (some f) false operands with
    | some fault => throw (.operandScope fault)
    | none => return ()

def checkOpen (ctx : Context) (b : BlockRef) (operation : Operation) : Checked Unit := do
  match ← ctx.terminator? b with
  | some last =>
    let name := (← ctx.block b).name.getD ""
    throw (.afterTerminator operation.opcode name (← ctx.operation last).opcode)
  | none => return ()

/-- Each argument has its parameter's type; arguments beyond the parameters have first class
types. -/
def checkArguments (ctx : Context) : Nat → List TypeRef → List ValueRef → Checked Unit
  | _, _, [] => return ()
  | position, param :: params, arg :: args => do
    let ty ← ctx.valueType arg
    if param ≠ ty then
      throw (.argumentType position (← ctx.describeType ty) (← ctx.describeType param))
    ctx.checkArguments (position + 1) params args
  | position, [], arg :: args => do
    let ty ← ctx.valueType arg
    if !(← ctx.shape ty).isFirstClass then throw (.variadicType position (← ctx.describeType ty))
    ctx.checkArguments (position + 1) [] args

def checkDirectCallee (ctx : Context) (callee : ValueRef) (b : BlockRef) : Checked Unit := do
  let kind := (← ctx.value callee).kind
  let parent := (← ctx.block b).parent
  match kind, parent with
  | .function target, some caller =>
    let callerModule := (← ctx.function caller).module
    if target.module ≠ callerModule then
      let callerName ← ctx.moduleName callerModule
      let targetName ← ctx.functionName ⟨callee⟩
      throw (.callAcrossModules callerName targetName (← ctx.moduleName target.module))
  | _, _ => return ()

def checkCall (ctx : Context) (callee : ValueRef) (args : List ValueRef) :
    Checked FunctionTypeRef := do
  match ← ctx.calleeSignature? callee with
  | none => throw (.notCallable (← ctx.describeTypeOf callee))
  | some signature =>
    let (_, params, variadic) ← ctx.signature signature
    let countFits := if variadic then params.length ≤ args.length else args.length = params.length
    if !countFits then
      throw (.argumentCount (← ctx.describeType signature.type) params.length args.length)
    ctx.checkArguments 0 params args
    return signature

/-- In a block of a function, what is returned has to have the function's return type. -/
def checkReturn (ctx : Context) (value : Option ValueRef) (b : BlockRef) : Checked Unit := do
  match (← ctx.block b).parent with
  | none => return ()
  | some f =>
    let (expected, _) ← ctx.signature (← ctx.function f).signature
    match value with
    | none =>
      if !(← ctx.shape expected).isVoid then
        throw (.missingReturnValue (← ctx.functionName f) (← ctx.describeType expected))
    | some v =>
      let actual ← ctx.valueType v
      if actual ≠ expected then
        throw (.returnType (← ctx.describeType actual) (← ctx.functionName f)
          (← ctx.describeType expected))

def checkCondition (ctx : Context) (cond : ValueRef) : Checked Unit := do
  let ty ← ctx.valueType cond
  if (← ctx.shape ty) ≠ .integer 1 then throw (.conditionType (← ctx.describeType ty))

end Context

namespace Build

def append (b : BlockRef) (type : TypeRef) (operation : Operation) (name : String) :
    Build InstructionRef := do
  read (·.checkOpen b operation)
  let value ← allocValue { type, kind := .instruction ⟨b, operation⟩ }
  change (·.modifyBlock b fun record =>
    { record with instructions := record.instructions ++ [⟨value⟩] })
  if !name.isEmpty then setValueName value name
  return ⟨value⟩

def createCall (callee : ValueRef) (args : List ValueRef) (name : String) (b : BlockRef) :
    Build CallRef := do
  let signature ← read (·.checkCall callee args)
  read (·.checkDirectCallee callee b)
  read (·.checkOperandScope b args)
  let (result, _) ← read (·.signature signature)
  return ⟨(← append b result (.call callee args .c) name).value⟩

def createReturn (value : Option ValueRef) (b : BlockRef) : Build ReturnRef := do
  read (·.checkReturn value b)
  match value with
  | some v => read (·.checkOperandScope b [v])
  | none => pure ()
  let void ← voidType
  return ⟨(← append b void (.ret value) "").value⟩

def createBranch (target b : BlockRef) : Build BranchRef := do
  let void ← voidType
  return ⟨(← append b void (.br target) "").value⟩

def createCondBranch (cond : ValueRef) (ifTrue ifFalse b : BlockRef) : Build BranchRef := do
  read (·.checkCondition cond)
  read (·.checkOperandScope b [cond])
  let void ← voidType
  return ⟨(← append b void (.condBr cond ifTrue ifFalse) "").value⟩

def setCallConvention (c : CallRef) (convention : CallingConv) : Build Unit := do
  match ← read (·.instruction c.toInstruction) with
  | ⟨parent, .call callee args _⟩ =>
    change (·.modifyValue c.value
      ({ · with kind := .instruction ⟨parent, .call callee args convention⟩ }))
  | _ => pure ()

end Build

namespace Context

def callSignature (ctx : Context) (callee : ValueRef) : Checked FunctionTypeRef := do
  match ← ctx.calleeSignature? callee with
  | some signature => return signature
  | none => throw (.inconsistent "call through a non-function pointer")

/-! ### Typed views of a value handle -/

def asConstant? (ctx : Context) (v : ValueRef) : Checked (Option ConstantRef) :=
  return if (← ctx.value v).kind.isConstant then some ⟨v⟩ else none

def asConstantInt? (ctx : Context) (v : ValueRef) : Checked (Option ConstantIntRef) := do
  match (← ctx.value v).kind with
  | .int _ => return some ⟨v⟩
  | _ => return none

def asGlobal? (ctx : Context) (v : ValueRef) : Checked (Option GlobalRef) := do
  match (← ctx.value v).kind with
  | .global _ => return some ⟨v⟩
  | _ => return none

def asFunction? (ctx : Context) (v : ValueRef) : Checked (Option FunctionRef) := do
  match (← ctx.value v).kind with
  | .function _ => return some ⟨v⟩
  | _ => return none

def asArgument? (ctx : Context) (v : ValueRef) : Checked (Option ArgumentRef) := do
  match (← ctx.value v).kind with
  | .argument _ => return some ⟨v⟩
  | _ => return none

def asInstructionWith? (ctx : Context) (accept : Operation → Bool) (v : ValueRef) :
    Checked (Option InstructionRef) := do
  match (← ctx.value v).kind with
  | .instruction record => return if accept record.operation then some ⟨v⟩ else none
  | _ => return none

def asInstruction? (ctx : Context) (v : ValueRef) : Checked (Option InstructionRef) :=
  ctx.asInstructionWith? (fun _ => true) v

def asCall? (ctx : Context) (v : ValueRef) : Checked (Option CallRef) :=
  return (← ctx.asInstructionWith? Operation.isCall v).map (⟨·.value⟩)

def asReturn? (ctx : Context) (v : ValueRef) : Checked (Option ReturnRef) :=
  return (← ctx.asInstructionWith? Operation.isReturn v).map (⟨·.value⟩)

def asBranch? (ctx : Context) (v : ValueRef) : Checked (Option BranchRef) :=
  return (← ctx.asInstructionWith? Operation.isBranch v).map (⟨·.value⟩)

end Context
end ModuleIR
