import ModuleIR.Build.Outcome

set_option autoImplicit false

/-!
# Names of values and blocks

Globals and functions are named in the table of their module; arguments, instructions and blocks in
the table of their function. What is in a detached block keeps the name it is given, and gets a
unique one when the block is inserted.
-/
namespace ModuleIR

inductive NameScope where
  | module (module : ModuleRef)
  | function (function : FunctionRef)
  | detached
  deriving DecidableEq, Repr, Inhabited

namespace Context

def nameScope (ctx : Context) (v : ValueRef) : Checked NameScope := do
  match (← ctx.value v).kind with
  | .global record => return .module record.module
  | .function record => return .module record.module
  | .argument record => return .function record.parent
  | .instruction record =>
    match (← ctx.block record.parent).parent with
    | some function => return .function function
    | none => return .detached
  | _ => throw .constantName

end Context

namespace Build

def rebindInModule (m : ModuleRef) (old : Option String) (name : String) (symbol : Symbol) :
    Build (Option String) := do
  let record ← read (·.module m)
  let (bound, names) := record.names.rebind old name symbol
  change (·.modifyModule m ({ · with names }))
  return bound

def rebindInFunction (f : FunctionRef) (old : Option String) (name : String) (symbol : Symbol) :
    Build (Option String) := do
  let record ← read (·.function f)
  let (bound, names) := record.names.rebind old name symbol
  change (·.modifyFunction f ({ · with names }))
  return bound

def looseName (name : String) : Option String := if name.isEmpty then none else some name

/-- Renames a value. An empty name makes it anonymous; a taken name gets a suffix. -/
def setValueName (v : ValueRef) (name : String) : Build Unit := do
  let scope ← read (·.nameScope v)
  let record ← read (·.value v)
  if !name.isEmpty then
    let shape ← read (·.shape record.type)
    require (!shape.isVoid) (.voidName name)
  let bound ← match scope with
    | .module m => rebindInModule m record.name name (.value v)
    | .function f => rebindInFunction f record.name name (.value v)
    | .detached => pure (looseName name)
  change (·.setValueName v bound)

def setBlockName (b : BlockRef) (name : String) : Build Unit := do
  let record ← read (·.block b)
  let bound ← match record.parent with
    | some f => rebindInFunction f record.name name (.block b)
    | none => pure (looseName name)
  change (·.setBlockName b bound)

end Build
end ModuleIR
