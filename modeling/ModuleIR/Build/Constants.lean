import ModuleIR.Arena.Integers
import ModuleIR.Build.Types

set_option autoImplicit false

/-!
# Making constants

Integers, byte arrays and pointer arithmetic. Like types they are uniqued: the same content gives
the same handle as long as the constant is alive.
-/
namespace ModuleIR

def Context.allocValue (ctx : Context) (record : ValueRecord) : ValueRef × Context :=
  (⟨ctx.id, ctx.values.size⟩, { ctx with values := ctx.values.push record })

def Context.internConstant (ctx : Context) (key : ConstantKey) (record : ValueRecord) :
    ValueRef × Context :=
  match ctx.constantTable.find? key with
  | some known => (known, ctx)
  | none =>
    let (fresh, grown) := ctx.allocValue record
    (fresh, { grown with constantTable := grown.constantTable.insert key fresh })

namespace Build

def allocValue (record : ValueRecord) : Build ValueRef := do
  read fun ctx => ctx.checkOwner .type record.type.ctx
  update (·.allocValue record)

def constantInt (value : WideInt) : Build ConstantIntRef := do
  let ty ← integerType value.bits
  return ⟨← update (·.internConstant (.int value) { type := ty.type, kind := .int value })⟩

def constantSigned (ty : IntegerTypeRef) (value : Int64) : Build ConstantIntRef := do
  let bits ← read (·.integerBits ty)
  constantInt (← read fun _ => WideInt.fromInt64 bits value)

def constantBool (value : Bool) : Build ConstantIntRef := do
  constantInt (← read fun _ => WideInt.fromUInt64 1 (if value then 1 else 0))

/-- Reads a literal, with a warning when it is truncated. -/
def literal (bits : Nat) (text : String) (radix : Nat) : Build (Except LiteralError WideInt) :=
  match Literal.read bits text radix with
  | .error e => return .error e
  | .ok read => do
    if read.truncated then emit (.literalTruncated text read.value)
    return .ok read.value

/-- The bytes of a string constant: those of the text up to its first zero byte, and a zero byte
when asked for. -/
def stringBytes (text : String) (addNull : Bool) : List UInt8 :=
  text.toUTF8.toList.takeWhile (· != 0) ++ (if addNull then [0] else [])

def constantString (text : String) (addNull : Bool) : Build ConstantRef := do
  let bytes := stringBytes text addNull
  let byte ← integerType 8
  let ty ← arrayType byte.type bytes.length
  return ⟨← update (·.internConstant (.bytes bytes) { type := ty.type, kind := .bytes bytes })⟩

end Build

namespace Context

/-- The type that the indices from `position` on reach from `current`. Each index has to be an
integer constant; the first steps over the pointer, each further one into an array. -/
def elementType (ctx : Context) : Nat → TypeRef → List ConstantRef → Checked TypeRef
  | _, current, [] => return current
  | position, current, index :: rest => do
    match (← ctx.value index.value).kind with
    | .int _ =>
      if position = 0 then ctx.elementType 1 current rest
      else match ← ctx.shape current with
        | .array element _ => ctx.elementType (position + 1) element rest
        | _ => throw (.elementStep position (← ctx.describeType current))
    | _ => throw (.elementIndex position)

def pointerParts (ctx : Context) (base : ConstantRef) : Checked (TypeRef × AddressSpace) := do
  let ty ← ctx.valueType base.value
  match ← ctx.shape ty with
  | .pointer pointee space => return (pointee, space)
  | _ => throw (.elementBase (← ctx.describeType ty))

end Context

namespace Build

/-- Pointer arithmetic over a constant base: a pointer to the element that the indices reach, in the
address space of the base. -/
def elementPtr (base : ConstantRef) (indices : List ConstantRef) (inBounds : Bool) :
    Build ConstantRef := do
  let (source, space) ← read (·.pointerParts base)
  let element ← read fun ctx => ctx.elementType 0 source indices
  let ty ← pointerType element space
  let operands := indices.map (·.value)
  return ⟨← update (·.internConstant (.elementPtr base.value operands inBounds)
    { type := ty.type, kind := .elementPtr ⟨source, base.value, operands, inBounds⟩ })⟩

end Build
end ModuleIR
