set_option autoImplicit false

/-!
# Handles

A handle names an entity of one context: it carries the number of the context and the position of
the entity in the context's arena of its kind. Typed handles wrap a type or value handle and promise
a variant; they can always be turned back into the handle they wrap.

Numbers and positions have no bound here. What is proved of them is meant for fewer than `2 ^ 32`
contexts, and as few entities of a kind in each, for which words of 32 bits are enough.
-/
namespace ModuleIR

/-- Number of a context; the first one is 1. -/
structure ContextId where
  number : Nat
  deriving DecidableEq, Repr, Inhabited

def ContextId.text (c : ContextId) : String := s!"ContextId({c.number})"

structure TypeRef where
  ctx : ContextId
  index : Nat
  deriving DecidableEq, Repr, Inhabited

structure ValueRef where
  ctx : ContextId
  index : Nat
  deriving DecidableEq, Repr, Inhabited

structure BlockRef where
  ctx : ContextId
  index : Nat
  deriving DecidableEq, Repr, Inhabited

structure ModuleRef where
  ctx : ContextId
  index : Nat
  deriving DecidableEq, Repr, Inhabited

structure IntegerTypeRef where
  type : TypeRef
  deriving DecidableEq, Repr, Inhabited

structure PointerTypeRef where
  type : TypeRef
  deriving DecidableEq, Repr, Inhabited

structure ArrayTypeRef where
  type : TypeRef
  deriving DecidableEq, Repr, Inhabited

structure FunctionTypeRef where
  type : TypeRef
  deriving DecidableEq, Repr, Inhabited

/-- A value fixed at construction: an integer, a byte array, pointer arithmetic, a global or a
function. -/
structure ConstantRef where
  value : ValueRef
  deriving DecidableEq, Repr, Inhabited

structure ConstantIntRef where
  value : ValueRef
  deriving DecidableEq, Repr, Inhabited

structure GlobalRef where
  value : ValueRef
  deriving DecidableEq, Repr, Inhabited

structure FunctionRef where
  value : ValueRef
  deriving DecidableEq, Repr, Inhabited

structure ArgumentRef where
  value : ValueRef
  deriving DecidableEq, Repr, Inhabited

structure InstructionRef where
  value : ValueRef
  deriving DecidableEq, Repr, Inhabited

structure CallRef where
  value : ValueRef
  deriving DecidableEq, Repr, Inhabited

structure ReturnRef where
  value : ValueRef
  deriving DecidableEq, Repr, Inhabited

structure BranchRef where
  value : ValueRef
  deriving DecidableEq, Repr, Inhabited

def ConstantIntRef.toConstant (c : ConstantIntRef) : ConstantRef := ⟨c.value⟩
def GlobalRef.toConstant (g : GlobalRef) : ConstantRef := ⟨g.value⟩
def FunctionRef.toConstant (f : FunctionRef) : ConstantRef := ⟨f.value⟩
def CallRef.toInstruction (c : CallRef) : InstructionRef := ⟨c.value⟩
def ReturnRef.toInstruction (r : ReturnRef) : InstructionRef := ⟨r.value⟩
def BranchRef.toInstruction (b : BranchRef) : InstructionRef := ⟨b.value⟩

end ModuleIR
