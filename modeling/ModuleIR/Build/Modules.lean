import ModuleIR.Build.Outcome

set_option autoImplicit false

/-!
# Modules: making, finding and erasing

A module owns its globals and functions. Erasing it leaves tombstones for all it owns, and removes
from the context the pointer arithmetic that refers to what was erased.
-/
namespace ModuleIR
namespace Build

def createModule (name : String) : Build ModuleRef := do
  emit (.moduleCreated name)
  fun ctx => ⟨[], .ok (⟨ctx.id, ctx.modules.size⟩,
    { ctx with modules := ctx.modules.push (some { name }) })⟩

end Build

def ValueRecord.tombstone (r : ValueRecord) : ValueRecord :=
  { r with kind := .erased, name := none }

def BlockRecord.tombstone (r : BlockRecord) : BlockRecord :=
  { r with erased := true, instructions := [] }

namespace Context

def findFunction? (ctx : Context) (m : ModuleRef) (name : String) :
    Checked (Option FunctionRef) := do
  match (← ctx.module m).names.find? name with
  | some (.value v) =>
    match (← ctx.value v).kind with
    | .function _ => return some ⟨v⟩
    | _ => return none
  | _ => return none

def findGlobal? (ctx : Context) (m : ModuleRef) (name : String) : Checked (Option GlobalRef) := do
  match (← ctx.module m).names.find? name with
  | some (.value v) =>
    match (← ctx.value v).kind with
    | .global _ => return some ⟨v⟩
    | _ => return none
  | _ => return none

/-! ### Erasure -/

def eraseValue (ctx : Context) (v : ValueRef) : Checked Context := do
  ctx.checkOwner .value v.ctx
  match ctx.values[v.index]? with
  | some _ => return ctx.modifyValue v ValueRecord.tombstone
  | none => throw (.inconsistent "value handle beyond the arena")

def eraseBlock (ctx : Context) (b : BlockRef) : Checked Context := do
  ctx.checkOwner .block b.ctx
  match ctx.blocks[b.index]? with
  | some _ => return ctx.modifyBlock b BlockRecord.tombstone
  | none => throw (.inconsistent "block handle beyond the arena")

def eraseBlockTree (ctx : Context) (b : BlockRef) : Checked Context := do
  let record ← ctx.block b
  let emptied ← record.instructions.foldlM (fun c i => c.eraseValue i.value) ctx
  emptied.eraseBlock b

def eraseFunctionTree (ctx : Context) (f : FunctionRef) : Checked Context := do
  let record ← ctx.function f
  let bodiless ← record.blocks.foldlM eraseBlockTree ctx
  let bare ← record.args.foldlM (fun c a => c.eraseValue a.value) bodiless
  bare.eraseValue f.value

/-- Pointer arithmetic whose base or one of whose indices is erased. -/
def isDeadKey (ctx : Context) : ConstantKey → Checked Bool
  | .elementPtr base indices _ => do
    if ← ctx.isErased base then return true else indices.anyM ctx.isErased
  | _ => return false

def deadAmong (ctx : Context) : List (ConstantKey × ValueRef) → Checked (List ValueRef)
  | [] => return []
  | (key, v) :: rest => do
    let dead ← ctx.isDeadKey key
    let others ← ctx.deadAmong rest
    return if dead then v :: others else others

def deadConstants (ctx : Context) : Checked (List ValueRef) := ctx.deadAmong ctx.constantTable.entries

def dropConstants (ctx : Context) (dead : List ValueRef) : Checked Context := do
  let erased ← dead.foldlM eraseValue ctx
  return { erased with
    constantTable := erased.constantTable.filterEntries fun v => !dead.contains v }

def purgeWithin (ctx : Context) : Nat → Checked Context
  | 0 => return ctx
  | rounds + 1 => do
    let dead ← ctx.deadConstants
    if dead.isEmpty then return ctx else (← ctx.dropConstants dead).purgeWithin rounds

/-- Erases the constants that refer to something erased, directly or through others. Each round but
the last takes an entry out of the table, so its size bounds the rounds. -/
def purgeConstants (ctx : Context) : Checked Context :=
  ctx.purgeWithin (ctx.constantTable.size + 1)

def takeModule (ctx : Context) (m : ModuleRef) : Checked (ModuleRecord × Context) := do
  ctx.checkOwner .module m.ctx
  match ctx.modules[m.index]? with
  | some (some record) =>
    return (record, { ctx with modules := ctx.modules.modify m.index fun _ => none })
  | some none => throw (.erasedTwice m.index)
  | none => throw (.inconsistent "module handle beyond the arena")

def eraseContents (ctx : Context) (record : ModuleRecord) : Checked Context := do
  let functionless ← record.functions.foldlM eraseFunctionTree ctx
  let empty ← record.globals.foldlM (fun c g => c.eraseValue g.value) functionless
  empty.purgeConstants

end Context

namespace Build

def replace (f : Context → Checked Context) : Build Unit := fun ctx =>
  ⟨[], (f ctx).map ((), ·)⟩

/-- Destroys a module and everything it owns. Other modules, and the types, integers and byte
arrays of the context, stay as they are. -/
def eraseModule (m : ModuleRef) : Build Unit := do
  let record ← fun ctx => ⟨[], ctx.takeModule m⟩
  emit (.moduleErased record.name record.functions.length record.globals.length)
  replace (·.eraseContents record)

end Build
end ModuleIR
