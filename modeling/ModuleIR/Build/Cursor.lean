import ModuleIR.Build.Instructions

set_option autoImplicit false

/-!
# Cursors

A cursor keeps the block that instructions are added to, so that they can be made without naming
their block each time.
-/
namespace ModuleIR

structure Cursor where
  block : Option BlockRef := none
  deriving DecidableEq, Repr, Inhabited

namespace Cursor

def atEndOf (b : BlockRef) : Cursor := ⟨some b⟩

def target (c : Cursor) : Build BlockRef :=
  match c.block with
  | some b => return b
  | none => Build.fail .noInsertionPoint

def call (c : Cursor) (callee : ValueRef) (args : List ValueRef) (name : String) :
    Build CallRef := do
  Build.createCall callee args name (← c.target)

def ret (c : Cursor) (value : ValueRef) : Build ReturnRef := do
  Build.createReturn (some value) (← c.target)

def retVoid (c : Cursor) : Build ReturnRef := do
  Build.createReturn none (← c.target)

def branch (c : Cursor) (target : BlockRef) : Build BranchRef := do
  Build.createBranch target (← c.target)

def condBranch (c : Cursor) (cond : ValueRef) (ifTrue ifFalse : BlockRef) : Build BranchRef := do
  Build.createCondBranch cond ifTrue ifFalse (← c.target)

end Cursor

namespace Build

/-- Stores a text, with a zero byte at its end, as a private global of a module, and gives a pointer
to its first byte. -/
def globalString (m : ModuleRef) (text name : String) : Build ConstantRef := do
  let init ← constantString text true
  let type ← read (·.valueType init.value)
  let g ← createGlobal m
    { type, isConstant := true, linkage := .privateSymbol, initializer := some init, name }
  let word ← integerType 32
  let zero ← constantSigned word 0
  elementPtr g.toConstant [zero.toConstant, zero.toConstant] true

end Build
end ModuleIR
