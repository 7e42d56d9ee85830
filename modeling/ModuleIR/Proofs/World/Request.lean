import ModuleIR.Build.Cursor
import ModuleIR.Build.Modules

set_option autoImplicit false

/-!
# Requests

The public operations as data. A handle is kept with the view its holder has of it: a type handle
may be known to be that of an integer type, a value handle to be that of a function. `Request.run`
is the building step of a request, with the handles it answers, and `Request.handles` are the
handles that a request is made with. `Context.Yields` says what the accessors, upcasts and
downcasts of a handle give.
-/
namespace ModuleIR

/-- What the holder of a type handle knows about the type. -/
inductive TypeView where
  | any
  | integer
  | pointer
  | array
  | function
  deriving DecidableEq, Repr

def TypeView.accepts : TypeView → Shape → Bool
  | any, _ => true
  | integer, shape => shape.isInteger
  | pointer, shape => shape.isPointer
  | array, shape => shape.isArray
  | function, shape => shape.isFunction

/-- What the holder of a value handle knows about the value. -/
inductive ValueView where
  | any
  | constant
  | constantInt
  | global
  | function
  | argument
  | instruction
  | call
  | ret
  | branch
  deriving DecidableEq, Repr

namespace ValueView

def accepts : ValueView → ValueKind → Bool
  | any, _ => true
  | constant, kind => kind.isConstant
  | constantInt, .int _ => true
  | global, .global _ => true
  | function, .function _ => true
  | argument, .argument _ => true
  | instruction, .instruction _ => true
  | call, .instruction record => record.operation.isCall
  | ret, .instruction record => record.operation.isReturn
  | branch, .instruction record => record.operation.isBranch
  | _, _ => false

def parents : ValueView → List ValueView
  | any => []
  | constant | argument | instruction => [any]
  | constantInt | global | function => [constant, any]
  | call | ret | branch => [instruction, any]

theorem accepts_of_parent {view parent : ValueView} {kind : ValueKind}
    (h : parent ∈ view.parents) (accepted : view.accepts kind = true) :
    parent.accepts kind = true := by
  cases view <;> cases kind <;> simp_all [parents, accepts, ValueKind.isConstant] <;>
    rcases h with rfl | rfl <;> rfl

end ValueView

/-- A handle of any kind, with its holder's view. -/
inductive Handle where
  | type (view : TypeView) (type : TypeRef)
  | value (view : ValueView) (value : ValueRef)
  | block (block : BlockRef)
  | module (module : ModuleRef)
  deriving DecidableEq, Repr

def Handle.owner : Handle → ContextId
  | type _ t => t.ctx
  | value _ v => v.ctx
  | block b => b.ctx
  | module m => m.ctx

/-! ### Handles that records hold -/

def Symbol.handle : Symbol → Handle
  | value v => .value .any v
  | block b => .block b

def NameTable.handles (t : NameTable) : List Handle :=
  t.bindings.entries.map fun entry => entry.2.handle

def Operation.handles (o : Operation) : List Handle :=
  o.operands.map (.value .any) ++ o.successors.map .block

def ValueKind.handles : ValueKind → List Handle
  | .int _ | .bytes _ | .erased => []
  | .elementPtr e => .type .any e.sourceType :: .value .any e.base :: e.indices.map (.value .any)
  | .global g =>
    .module g.module :: .type .any g.valueType ::
      g.initializer.toList.map fun init => .value .constant init.value
  | .function f =>
    .module f.module :: .type .function f.signature.type ::
      f.args.map (fun a => .value .argument a.value) ++ f.blocks.map .block ++ f.names.handles
  | .argument a => [.value .function a.parent.value]
  | .instruction i => .block i.parent :: i.operation.handles

def BlockRecord.handles (b : BlockRecord) : List Handle :=
  b.parent.toList.map (fun f => .value .function f.value) ++
    b.instructions.map fun i => .value .instruction i.value

def ModuleRecord.handles (m : ModuleRecord) : List Handle :=
  m.globals.map (fun g => .value .global g.value) ++
    m.functions.map (fun f => .value .function f.value) ++ m.names.handles

/-- What is obtained from a handle of a context without changing the context. -/
inductive Context.Yields (ctx : Context) : Handle → Handle → Prop
  | typeView {t : TypeRef} {shape : Shape} {view known : TypeView}
      (read : ctx.shape t = .ok shape) (accepted : view.accepts shape = true) :
      Yields ctx (.type known t) (.type view t)
  | typeUpcast {t : TypeRef} {known : TypeView} : Yields ctx (.type known t) (.type .any t)
  | innerType {t inner : TypeRef} {shape : Shape} {known : TypeView}
      (read : ctx.shape t = .ok shape) (mem : inner ∈ shape.inner) :
      Yields ctx (.type known t) (.type .any inner)
  | valueView {v : ValueRef} {record : ValueRecord} {view known : ValueView}
      (read : ctx.value v = .ok record) (accepted : view.accepts record.kind = true) :
      Yields ctx (.value known v) (.value view v)
  | valueUpcast {v : ValueRef} {view known : ValueView} (parent : view ∈ known.parents) :
      Yields ctx (.value known v) (.value view v)
  | valueType {v : ValueRef} {record : ValueRecord} {known : ValueView}
      (read : ctx.value v = .ok record) : Yields ctx (.value known v) (.type .any record.type)
  /-- The type of an integer constant is handed out as an integer type. -/
  | integerType {v : ValueRef} {record : ValueRecord} (read : ctx.value v = .ok record) :
      Yields ctx (.value .constantInt v) (.type .integer record.type)
  | content {v : ValueRef} {record : ValueRecord} {known : ValueView} {h : Handle}
      (read : ctx.value v = .ok record) (mem : h ∈ record.kind.handles) :
      Yields ctx (.value known v) h
  | calledType {c : CallRef} {callee : ValueRef} {args : List ValueRef} {cc : CallingConv}
      {signature : FunctionTypeRef}
      (read : ctx.operation c.toInstruction = .ok (.call callee args cc))
      (called : ctx.callSignature callee = .ok signature) :
      Yields ctx (.value .call c.value) (.type .function signature.type)
  | blockContent {b : BlockRef} {record : BlockRecord} {h : Handle}
      (read : ctx.block b = .ok record) (mem : h ∈ record.handles) : Yields ctx (.block b) h
  | moduleContent {m : ModuleRef} {record : ModuleRecord} {h : Handle}
      (read : ctx.module m = .ok record) (mem : h ∈ record.handles) : Yields ctx (.module m) h
  | findFunction {m : ModuleRef} {name : String} {f : FunctionRef}
      (found : ctx.findFunction? m name = .ok (some f)) :
      Yields ctx (.module m) (.value .function f.value)
  | findGlobal {m : ModuleRef} {name : String} {g : GlobalRef}
      (found : ctx.findGlobal? m name = .ok (some g)) :
      Yields ctx (.module m) (.value .global g.value)

/-- Integers that can be had: read from a literal, or made from a word. -/
inductive WideInt.Built : WideInt → Prop
  | literal {bits : Nat} {text : String} {radix : Nat} {read : Literal}
      (accepted : Literal.read bits text radix = .ok read) : Built read.value
  | signed {bits : Nat} (valid : WideInt.validWidth bits = true) (value : Int64) :
      Built (WideInt.ofInt64 bits value)
  | unsigned {bits : Nat} (valid : WideInt.validWidth bits = true) (value : UInt64) :
      Built (WideInt.ofUInt64 bits value)

/-- The operations that change a context. -/
inductive Request where
  | voidType
  | labelType
  | integerType (bits : Nat)
  | pointerType (pointee : TypeRef) (space : AddressSpace)
  | arrayType (element : TypeRef) (length : Nat)
  | functionType (result : TypeRef) (params : List TypeRef) (variadic : Bool)
  | constantInt (value : WideInt) (built : value.Built)
  | constantSigned (type : IntegerTypeRef) (value : Int64)
  | constantBool (value : Bool)
  | constantString (text : String) (addNull : Bool)
  | elementPtr (base : ConstantRef) (indices : List ConstantRef) (inBounds : Bool)
  | createModule (name : String)
  | eraseModule (m : ModuleRef)
  | createGlobal (m : ModuleRef) (spec : GlobalSpec)
  | setInitializer (g : GlobalRef) (initializer : Option ConstantRef)
  | setGlobalLinkage (g : GlobalRef) (linkage : Linkage)
  | globalString (m : ModuleRef) (text name : String)
  | createFunction (signature : FunctionTypeRef) (linkage : Linkage) (name : String) (m : ModuleRef)
  | setFunctionLinkage (f : FunctionRef) (linkage : Linkage)
  | setFunctionConvention (f : FunctionRef) (convention : CallingConv)
  | setValueName (v : ValueRef) (name : String)
  | setBlockName (b : BlockRef) (name : String)
  | createBlock (name : String) (parent : Option FunctionRef) (before : Option BlockRef)
  | insertBlock (b : BlockRef) (f : FunctionRef) (before : Option BlockRef)
  | createCall (callee : ValueRef) (args : List ValueRef) (name : String) (b : BlockRef)
  | createReturn (value : Option ValueRef) (b : BlockRef)
  | createBranch (target b : BlockRef)
  | createCondBranch (cond : ValueRef) (ifTrue ifFalse b : BlockRef)
  | setCallConvention (c : CallRef) (convention : CallingConv)

namespace Request

/-- The step of a request, with the handles it answers. A builder passes the block of its cursor on
to the step that makes the instruction, and has no request of its own. -/
def run : Request → Build (List Handle)
  | voidType => do return [.type .any (← Build.voidType)]
  | labelType => do return [.type .any (← Build.labelType)]
  | integerType bits => do return [.type .integer (← Build.integerType bits).type]
  | pointerType pointee space => do return [.type .pointer (← Build.pointerType pointee space).type]
  | arrayType element length => do return [.type .array (← Build.arrayType element length).type]
  | functionType result params variadic => do
    return [.type .function (← Build.functionType result params variadic).type]
  | constantInt value _ => do return [.value .constantInt (← Build.constantInt value).value]
  | constantSigned type value => do
    return [.value .constantInt (← Build.constantSigned type value).value]
  | constantBool value => do return [.value .constantInt (← Build.constantBool value).value]
  | constantString text addNull => do
    return [.value .constant (← Build.constantString text addNull).value]
  | elementPtr base indices inBounds => do
    return [.value .constant (← Build.elementPtr base indices inBounds).value]
  | createModule name => do return [.module (← Build.createModule name)]
  | eraseModule m => do Build.eraseModule m; return []
  | createGlobal m spec => do return [.value .global (← Build.createGlobal m spec).value]
  | setInitializer g initializer => do Build.setInitializer g initializer; return []
  | setGlobalLinkage g linkage => do Build.setGlobalLinkage g linkage; return []
  | globalString m text name => do
    return [.value .constant (← Build.globalString m text name).value]
  | createFunction signature linkage name m => do
    return [.value .function (← Build.createFunction signature linkage name m).value]
  | setFunctionLinkage f linkage => do Build.setFunctionLinkage f linkage; return []
  | setFunctionConvention f convention => do Build.setFunctionConvention f convention; return []
  | setValueName v name => do Build.setValueName v name; return []
  | setBlockName b name => do Build.setBlockName b name; return []
  | createBlock name parent before => do return [.block (← Build.createBlock name parent before)]
  | insertBlock b f before => do Build.insertBlock b f before; return []
  | createCall callee args name b => do
    return [.value .call (← Build.createCall callee args name b).value]
  | createReturn value b => do return [.value .ret (← Build.createReturn value b).value]
  | createBranch target b => do return [.value .branch (← Build.createBranch target b).value]
  | createCondBranch cond ifTrue ifFalse b => do
    return [.value .branch (← Build.createCondBranch cond ifTrue ifFalse b).value]
  | setCallConvention c convention => do Build.setCallConvention c convention; return []

def handles : Request → List Handle
  | voidType | labelType | integerType _ | constantInt .. | constantBool _ | constantString ..
  | createModule _ => []
  | pointerType t _ | arrayType t _ => [.type .any t]
  | functionType result params _ => (result :: params).map (.type .any)
  | constantSigned type _ => [.type .integer type.type]
  | elementPtr base indices _ => (base :: indices).map fun c => .value .constant c.value
  | eraseModule m | globalString m .. => [.module m]
  | createGlobal m spec =>
    .module m :: .type .any spec.type ::
      (spec.initializer.toList.map fun c => .value .constant c.value) ++
      spec.before.toList.map fun g => .value .global g.value
  | setInitializer g initializer =>
    .value .global g.value :: initializer.toList.map fun c => .value .constant c.value
  | setGlobalLinkage g _ => [.value .global g.value]
  | createFunction signature _ _ m => [.type .function signature.type, .module m]
  | setFunctionLinkage f _ | setFunctionConvention f _ => [.value .function f.value]
  | setValueName v _ => [.value .any v]
  | setBlockName b _ => [.block b]
  | createBlock _ parent before =>
    parent.toList.map (fun f => .value .function f.value) ++ before.toList.map .block
  | insertBlock b f before => .block b :: .value .function f.value :: before.toList.map .block
  | createCall callee args _ b => .block b :: (callee :: args).map (.value .any)
  | createReturn value b => .block b :: value.toList.map (.value .any)
  | createBranch target b => [.block target, .block b]
  | createCondBranch cond ifTrue ifFalse b =>
    [.value .any cond, .block ifTrue, .block ifFalse, .block b]
  | setCallConvention c _ => [.value .call c.value]

end Request
end ModuleIR
