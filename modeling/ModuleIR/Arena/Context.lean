import ModuleIR.Arena.Record
import ModuleIR.Arena.Violation

set_option autoImplicit false

/-!
# Contexts

A context owns the arenas of types, values, blocks and modules, and the two tables through which
types and constants are uniqued. An entity is read through its handle; a handle of another context
and a handle of an erased entity are violations.
-/
namespace ModuleIR

structure Context where
  id : ContextId
  types : Array Shape := #[]
  typeTable : Table Shape TypeRef := .empty
  values : Array ValueRecord := #[]
  constantTable : Table ConstantKey ValueRef := .empty
  blocks : Array BlockRecord := #[]
  /-- An erased module leaves an empty place. -/
  modules : Array (Option ModuleRecord) := #[]
  deriving DecidableEq, Repr

namespace Context

def new (id : ContextId) : Context := { id }

instance : Inhabited Context := ⟨new default⟩

def numTypes (ctx : Context) : Nat := ctx.types.size

def numConstants (ctx : Context) : Nat := ctx.constantTable.size

def liveModules (ctx : Context) : List ModuleRef :=
  ((List.range ctx.modules.size).filter fun i => (ctx.modules[i]?.join).isSome).map
    fun i => ⟨ctx.id, i⟩

def checkOwner (ctx : Context) (kind : EntityKind) (owner : ContextId) : Checked Unit :=
  if owner = ctx.id then .ok () else .error (.foreign kind owner ctx.id)

/-! ### Reading entities -/

def shape (ctx : Context) (t : TypeRef) : Checked Shape := do
  ctx.checkOwner .type t.ctx
  match ctx.types[t.index]? with
  | some shape => return shape
  | none => throw (.inconsistent "type handle beyond the arena")

def value (ctx : Context) (v : ValueRef) : Checked ValueRecord := do
  ctx.checkOwner .value v.ctx
  match ctx.values[v.index]? with
  | some record => if record.kind.isErased then throw (.erasedValue v.index) else return record
  | none => throw (.inconsistent "value handle beyond the arena")

def block (ctx : Context) (b : BlockRef) : Checked BlockRecord := do
  ctx.checkOwner .block b.ctx
  match ctx.blocks[b.index]? with
  | some record => if record.erased then throw (.erasedBlock b.index) else return record
  | none => throw (.inconsistent "block handle beyond the arena")

def module (ctx : Context) (m : ModuleRef) : Checked ModuleRecord := do
  ctx.checkOwner .module m.ctx
  match ctx.modules[m.index]? with
  | some (some record) => return record
  | some none => throw (.erasedModule m.index)
  | none => throw (.inconsistent "module handle beyond the arena")

def isErased (ctx : Context) (v : ValueRef) : Checked Bool := do
  ctx.checkOwner .value v.ctx
  match ctx.values[v.index]? with
  | some record => return record.kind.isErased
  | none => throw (.inconsistent "value handle beyond the arena")

/-! ### Reading typed values -/

def valueType (ctx : Context) (v : ValueRef) : Checked TypeRef := return (← ctx.value v).type

def valueName (ctx : Context) (v : ValueRef) : Checked (Option String) :=
  return (← ctx.value v).name

def global (ctx : Context) (g : GlobalRef) : Checked GlobalRecord := do
  match (← ctx.value g.value).kind with
  | .global record => return record
  | _ => throw (.inconsistent "GlobalVariable handle without global payload")

def function (ctx : Context) (f : FunctionRef) : Checked FunctionRecord := do
  match (← ctx.value f.value).kind with
  | .function record => return record
  | _ => throw (.inconsistent "Function handle without function payload")

def argument (ctx : Context) (a : ArgumentRef) : Checked ArgumentRecord := do
  match (← ctx.value a.value).kind with
  | .argument record => return record
  | _ => throw (.inconsistent "Argument handle without argument payload")

def instruction (ctx : Context) (i : InstructionRef) : Checked InstructionRecord := do
  match (← ctx.value i.value).kind with
  | .instruction record => return record
  | _ => throw (.inconsistent "Instruction handle without instruction payload")

def operation (ctx : Context) (i : InstructionRef) : Checked Operation :=
  return (← ctx.instruction i).operation

def constantInt (ctx : Context) (c : ConstantIntRef) : Checked WideInt := do
  match (← ctx.value c.value).kind with
  | .int value => return value
  | _ => throw (.inconsistent "ConstantInt handle without integer payload")

def functionName (ctx : Context) (f : FunctionRef) : Checked String :=
  return (← ctx.valueName f.value).getD ""

def moduleName (ctx : Context) (m : ModuleRef) : Checked String := return (← ctx.module m).name

/-! ### Reading typed types -/

def integerBits (ctx : Context) (t : IntegerTypeRef) : Checked Nat := do
  match ← ctx.shape t.type with
  | .integer bits => return bits
  | _ => throw (.inconsistent "IntegerType handle without integer shape")

def signature (ctx : Context) (t : FunctionTypeRef) : Checked (TypeRef × List TypeRef × Bool) := do
  match ← ctx.shape t.type with
  | .function result params variadic => return (result, params, variadic)
  | _ => throw (.inconsistent "FunctionType handle without function shape")

/-! ### Changing records -/

def modifyValue (ctx : Context) (v : ValueRef) (f : ValueRecord → ValueRecord) : Context :=
  { ctx with values := ctx.values.modify v.index f }

def modifyBlock (ctx : Context) (b : BlockRef) (f : BlockRecord → BlockRecord) : Context :=
  { ctx with blocks := ctx.blocks.modify b.index f }

def modifyModule (ctx : Context) (m : ModuleRef) (f : ModuleRecord → ModuleRecord) : Context :=
  { ctx with modules := ctx.modules.modify m.index (Option.map f) }

def modifyFunction (ctx : Context) (f : FunctionRef) (change : FunctionRecord → FunctionRecord) :
    Context :=
  ctx.modifyValue f.value fun record =>
    match record.kind with
    | .function function => { record with kind := .function (change function) }
    | _ => record

def setValueName (ctx : Context) (v : ValueRef) (name : Option String) : Context :=
  ctx.modifyValue v ({ · with name })

def setBlockName (ctx : Context) (b : BlockRef) (name : Option String) : Context :=
  ctx.modifyBlock b ({ · with name })

/-! ### Text of types -/

def describeTypeWithin (ctx : Context) : Nat → TypeRef → Checked String
  | 0, _ => throw (.inconsistent "type behind its user")
  | depth + 1, t => do
    match ← ctx.shape t with
    | .void => return "void"
    | .label => return "label"
    | .integer bits => return "i" ++ toString bits
    | .pointer pointee space =>
      return (← ctx.describeTypeWithin depth pointee) ++ space.text ++ "*"
    | .array element length =>
      return "[" ++ toString length ++ " x " ++ (← ctx.describeTypeWithin depth element) ++ "]"
    | .function result params variadic =>
      let result ← ctx.describeTypeWithin depth result
      let params ← params.mapM fun param => ctx.describeTypeWithin depth param
      return result ++ " (" ++ ", ".intercalate (params ++ (if variadic then ["..."] else [])) ++ ")"

/-- Text of a type, such as `[3 x i8]` or `i32 (i8*, ...)`. The types inside a type stand before it
in the arena, so its position bounds the nesting. -/
def describeType (ctx : Context) (t : TypeRef) : Checked String :=
  ctx.describeTypeWithin (t.index + 1) t

def describeTypeOf (ctx : Context) (v : ValueRef) : Checked String := do
  ctx.describeType (← ctx.valueType v)

end Context
end ModuleIR
