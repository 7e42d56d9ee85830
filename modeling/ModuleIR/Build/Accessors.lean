import ModuleIR.Build.Instructions

set_option autoImplicit false

/-!
# Reading through typed handles

What a typed handle of a type or an instruction gives beyond the handle that it wraps. Each reading
relies on the variant that the handle promises.
-/
namespace ModuleIR
namespace Context

def pointer (ctx : Context) (t : PointerTypeRef) : Checked (TypeRef × AddressSpace) := do
  match ← ctx.shape t.type with
  | .pointer pointee space => return (pointee, space)
  | _ => throw (.inconsistent "PointerType handle without pointer shape")

def array (ctx : Context) (t : ArrayTypeRef) : Checked (TypeRef × Nat) := do
  match ← ctx.shape t.type with
  | .array element length => return (element, length)
  | _ => throw (.inconsistent "ArrayType handle without array shape")

def call (ctx : Context) (c : CallRef) : Checked (ValueRef × List ValueRef × CallingConv) := do
  match ← ctx.operation c.toInstruction with
  | .call callee args convention => return (callee, args, convention)
  | _ => throw (.inconsistent "CallInst handle without call payload")

def calledType (ctx : Context) (c : CallRef) : Checked FunctionTypeRef := do
  let (callee, _) ← ctx.call c
  ctx.callSignature callee

def returnValue (ctx : Context) (r : ReturnRef) : Checked (Option ValueRef) := do
  match ← ctx.operation r.toInstruction with
  | .ret value => return value
  | _ => throw (.inconsistent "ReturnInst handle without ret payload")

def branchSuccessors (ctx : Context) (b : BranchRef) : Checked (List BlockRef) := do
  let operation ← ctx.operation b.toInstruction
  if operation.isBranch then return operation.successors
  else throw (.inconsistent "BranchInst handle without branch payload")

end Context
end ModuleIR
