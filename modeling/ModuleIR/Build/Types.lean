import ModuleIR.Build.Outcome

set_option autoImplicit false

/-!
# Making types

Types are uniqued: a request for a shape that exists gives the existing handle, so that equal
handles mean equal types.
-/
namespace ModuleIR

/-- The handle of a shape, which is added to the arena on the first request. -/
def Context.internType (ctx : Context) (shape : Shape) : TypeRef × Context :=
  match ctx.typeTable.find? shape with
  | some known => (known, ctx)
  | none =>
    let fresh : TypeRef := ⟨ctx.id, ctx.types.size⟩
    (fresh, { ctx with
      types := ctx.types.push shape
      typeTable := ctx.typeTable.insert shape fresh })

namespace Build

def update {α : Type} (f : Context → α × Context) : Build α := fun ctx => ⟨[], .ok (f ctx)⟩

def internType (shape : Shape) : Build TypeRef := do
  read fun ctx => shape.inner.forM fun inner => ctx.checkOwner .type inner.ctx
  update (·.internType shape)

def voidType : Build TypeRef := internType .void

def labelType : Build TypeRef := internType .label

def integerType (bits : Nat) : Build IntegerTypeRef := do
  require (WideInt.validWidth bits) (.integerWidth bits)
  return ⟨← internType (.integer bits)⟩

def pointerType (pointee : TypeRef) (space : AddressSpace) : Build PointerTypeRef := do
  read fun ctx => do
    if !(← ctx.shape pointee).isPointee then throw (.pointee (← ctx.describeType pointee))
  return ⟨← internType (.pointer pointee space)⟩

def arrayType (element : TypeRef) (length : Nat) : Build ArrayTypeRef := do
  read fun ctx => do
    if !(← ctx.shape element).isFirstClass then throw (.arrayElement (← ctx.describeType element))
  return ⟨← internType (.array element length)⟩

def functionType (result : TypeRef) (params : List TypeRef) (variadic : Bool) :
    Build FunctionTypeRef := do
  read fun ctx => params.forM fun param => do
    if !(← ctx.shape param).isFirstClass then throw (.parameterType (← ctx.describeType param))
  return ⟨← internType (.function result params variadic)⟩

end Build

namespace Context

/-! ### Typed views of a type handle -/

def asIntegerType? (ctx : Context) (t : TypeRef) : Checked (Option IntegerTypeRef) :=
  return if (← ctx.shape t).isInteger then some ⟨t⟩ else none

def asPointerType? (ctx : Context) (t : TypeRef) : Checked (Option PointerTypeRef) :=
  return if (← ctx.shape t).isPointer then some ⟨t⟩ else none

def asArrayType? (ctx : Context) (t : TypeRef) : Checked (Option ArrayTypeRef) :=
  return if (← ctx.shape t).isArray then some ⟨t⟩ else none

def asFunctionType? (ctx : Context) (t : TypeRef) : Checked (Option FunctionTypeRef) :=
  return if (← ctx.shape t).isFunction then some ⟨t⟩ else none

end Context
end ModuleIR
