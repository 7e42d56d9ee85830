import ModuleIR.Arena.Scope
import ModuleIR.Build.Constants
import ModuleIR.Build.Naming

set_option autoImplicit false

/-!
# Making globals and functions

A global or function is registered in its module when it is made. A global without initializer and a
function without blocks are declarations.
-/
namespace ModuleIR

structure GlobalSpec where
  type : TypeRef
  isConstant : Bool := false
  linkage : Linkage := .external
  initializer : Option ConstantRef := none
  name : String := ""
  /-- The global of the same module to stand in front of; without one the new global is last. -/
  before : Option GlobalRef := none
  threadLocal : ThreadLocalMode := .notThreadLocal
  space : AddressSpace := .generic
  externallyInitialized : Bool := false

namespace Context

/-- An initializer has the type of the global, and is free or belongs to the global's module. -/
def checkInitializer (ctx : Context) (m : ModuleRef) (type : TypeRef) (init : ConstantRef)
    (name : String) : Checked Unit := do
  let actual ← ctx.valueType init.value
  if actual ≠ type then
    throw (.initializerType (← ctx.describeType actual) (← ctx.describeType type))
  match ← ctx.scopeFault init.value m none true with
  | some fault => throw (.initializerScope name fault)
  | none => return ()

def globalPosition (ctx : Context) (m : ModuleRef) (before : Option GlobalRef) : Checked Nat := do
  let record ← ctx.module m
  match before with
  | none => return record.globals.length
  | some sibling =>
    match record.globals.idxOf? sibling with
    | some position => return position
    | none => throw (.globalPosition record.name)

end Context

namespace Build

def createGlobal (m : ModuleRef) (spec : GlobalSpec) : Build GlobalRef := do
  match spec.initializer with
  | some init => read (·.checkInitializer m spec.type init spec.name)
  | none => pure ()
  let position ← read (·.globalPosition m spec.before)
  let ty ← pointerType spec.type spec.space
  let value ← allocValue { type := ty.type, kind := .global {
    module := m
    valueType := spec.type
    isConstant := spec.isConstant
    linkage := spec.linkage
    initializer := spec.initializer
    threadLocal := spec.threadLocal
    space := spec.space
    externallyInitialized := spec.externallyInitialized } }
  change (·.modifyModule m fun record =>
    { record with globals := record.globals.insertIdx position ⟨value⟩ })
  let bound ← rebindInModule m none spec.name (.value value)
  change (·.setValueName value bound)
  emit (.globalCreated spec.name (← read (·.moduleName m)))
  return ⟨value⟩

def modifyGlobal (g : GlobalRef) (f : GlobalRecord → GlobalRecord) : Build Unit := do
  let record ← read (·.global g)
  change (·.modifyValue g.value ({ · with kind := .global (f record) }))

/-- Replaces the initializer; without one the global becomes a declaration. -/
def setInitializer (g : GlobalRef) (initializer : Option ConstantRef) : Build Unit := do
  match initializer with
  | some init => read fun ctx => do
    let record ← ctx.global g
    let name := (← ctx.valueName g.value).getD ""
    ctx.checkInitializer record.module record.valueType init name
  | none => pure ()
  modifyGlobal g ({ · with initializer })

def setGlobalLinkage (g : GlobalRef) (linkage : Linkage) : Build Unit :=
  modifyGlobal g ({ · with linkage })

def allocArguments (f : FunctionRef) : Nat → List TypeRef → Build (List ArgumentRef)
  | _, [] => return []
  | position, type :: rest => do
    let value ← allocValue { type, kind := .argument ⟨f, position⟩ }
    return ⟨value⟩ :: (← allocArguments f (position + 1) rest)

def modifyFunction (f : FunctionRef) (g : FunctionRecord → FunctionRecord) : Build Unit := do
  let _ ← read (·.function f)
  change (·.modifyFunction f g)

def createFunction (signature : FunctionTypeRef) (linkage : Linkage) (name : String)
    (m : ModuleRef) : Build FunctionRef := do
  let ty ← pointerType signature.type .generic
  let value ← allocValue { type := ty.type, kind := .function { module := m, signature, linkage } }
  let f : FunctionRef := ⟨value⟩
  let (_, params, _) ← read (·.signature signature)
  let args ← allocArguments f 0 params
  modifyFunction f ({ · with args })
  let _ ← read (·.module m)
  change (·.modifyModule m fun record => { record with functions := record.functions ++ [f] })
  let bound ← rebindInModule m none name (.value value)
  change (·.setValueName value bound)
  emit (.functionCreated name (← read (·.moduleName m)))
  return f

def setFunctionLinkage (f : FunctionRef) (linkage : Linkage) : Build Unit :=
  modifyFunction f ({ · with linkage })

def setFunctionConvention (f : FunctionRef) (convention : CallingConv) : Build Unit :=
  modifyFunction f ({ · with convention })

end Build

namespace Context

def functionArgument (ctx : Context) (f : FunctionRef) (position : Nat) :
    Checked ArgumentRef := do
  let record ← ctx.function f
  match record.args[position]? with
  | some argument => return argument
  | none => throw (.argumentIndex position record.args.length)

end Context

/-- How far the body of a function is built. -/
inductive FunctionState where
  | declared
  /-- Some block lacks a terminator. -/
  | defining
  /-- Every block ends in a terminator. -/
  | wellFormed
  deriving DecidableEq, Repr, Inhabited

def FunctionState.name : FunctionState → String
  | declared => "Declared"
  | defining => "Defining"
  | wellFormed => "WellFormed"

namespace Context

def allTerminated (ctx : Context) : List BlockRef → Checked Bool
  | [] => return true
  | b :: rest => do
    match ← ctx.terminator? b with
    | some _ => ctx.allTerminated rest
    | none => return false

def functionState (ctx : Context) (f : FunctionRef) : Checked FunctionState := do
  let record ← ctx.function f
  if record.blocks.isEmpty then return .declared
  if ← ctx.allTerminated record.blocks then return .wellFormed else return .defining

end Context
end ModuleIR
