import ModuleIR.Arena.Scope
import ModuleIR.Build.Globals
import ModuleIR.Build.Naming

set_option autoImplicit false

/-!
# Making and inserting blocks

A block is a list of instructions that belongs to at most one function. It can be made inside a
function, or detached and inserted later; what its instructions use is checked on insertion.
-/
namespace ModuleIR
namespace Context

def operandsOf (ctx : Context) : List InstructionRef → Checked (List ValueRef)
  | [] => return []
  | i :: rest => do
    let operation ← ctx.operation i
    return operation.operands ++ (← ctx.operandsOf rest)

def blockPosition (ctx : Context) (f : FunctionRef) (before : Option BlockRef) : Checked Nat := do
  let record ← ctx.function f
  match before with
  | none => return record.blocks.length
  | some sibling =>
    match record.blocks.idxOf? sibling with
    | some position => return position
    | none => throw (.blockPosition (← ctx.functionName f))

def checkInsertion (ctx : Context) (b : BlockRef) (f : FunctionRef) : Checked Unit := do
  let operands ← ctx.operandsOf (← ctx.block b).instructions
  let owner := (← ctx.function f).module
  match ← ctx.firstScopeFault owner (some f) false operands with
  | some fault => throw (.insertionScope (← ctx.functionName f) fault)
  | none => return ()

end Context

namespace Build

def adoptNames (f : FunctionRef) : List InstructionRef → Build Unit
  | [] => return ()
  | i :: rest => do
    match ← read (·.valueName i.value) with
    | some name =>
      let bound ← rebindInFunction f none name (.value i.value)
      change (·.setValueName i.value bound)
    | none => pure ()
    adoptNames f rest

def adoptBlockName (f : FunctionRef) (b : BlockRef) : Build Unit := do
  match (← read (·.block b)).name with
  | some name =>
    let bound ← rebindInFunction f none name (.block b)
    change (·.setBlockName b bound)
  | none => pure ()

/-- Inserts a detached block into a function, before a sibling when given, else at the end. Names
chosen while it was detached become unique in the function. -/
def insertBlock (b : BlockRef) (f : FunctionRef) (before : Option BlockRef) : Build Unit := do
  match (← read (·.block b)).parent with
  | some existing => fail (.blockPlaced (← read (·.functionName existing)))
  | none => pure ()
  let position ← read (·.blockPosition f before)
  read (·.checkInsertion b f)
  modifyFunction f fun record => { record with blocks := record.blocks.insertIdx position b }
  change (·.modifyBlock b ({ · with parent := some f }))
  adoptBlockName f b
  adoptNames f (← read (·.block b)).instructions
  let name := (← read (·.block b)).name.getD ""
  emit (.blockInserted name (← read (·.functionName f)) position)

/-- Makes a block: inside `parent`, before a sibling when given, or detached. -/
def createBlock (name : String) (parent : Option FunctionRef) (before : Option BlockRef) :
    Build BlockRef := do
  let b ← update fun ctx => ((⟨ctx.id, ctx.blocks.size⟩ : BlockRef),
    { ctx with blocks := ctx.blocks.push { name := looseName name } })
  match parent with
  | some f => insertBlock b f before
  | none => require before.isNone .positionWithoutParent
  return b

end Build
end ModuleIR
