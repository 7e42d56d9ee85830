import ModuleIR.Arena.NameTable
import ModuleIR.Attribute.AddressSpace
import ModuleIR.Attribute.CallingConv
import ModuleIR.Attribute.Linkage
import ModuleIR.Attribute.ThreadLocalMode
import ModuleIR.WideInt.Basic

set_option autoImplicit false

/-!
# Records

What the arenas of a context store: the shape of a type, and the records of values, blocks and
modules. Records refer to each other by handles only.
-/
namespace ModuleIR

/-- Shape of a type; it is also the key under which the type is found again. -/
inductive Shape where
  | void
  /-- Addresses of blocks. -/
  | label
  | integer (bits : Nat)
  | pointer (pointee : TypeRef) (space : AddressSpace)
  | array (element : TypeRef) (length : Nat)
  | function (result : TypeRef) (params : List TypeRef) (variadic : Bool)
  deriving DecidableEq, Repr, Inhabited

namespace Shape

def inner : Shape → List TypeRef
  | void | label | integer _ => []
  | pointer pointee _ => [pointee]
  | array element _ => [element]
  | function result params _ => result :: params

def isVoid : Shape → Bool
  | void => true
  | _ => false

def isInteger : Shape → Bool
  | integer _ => true
  | _ => false

def isPointer : Shape → Bool
  | pointer .. => true
  | _ => false

def isArray : Shape → Bool
  | array .. => true
  | _ => false

def isFunction : Shape → Bool
  | function .. => true
  | _ => false

/-- Types a value can have: all but void, label and bare function types. -/
def isFirstClass : Shape → Bool
  | void | label | function .. => false
  | _ => true

def isPointee : Shape → Bool
  | void | label => false
  | _ => true

end Shape

/-- What an instruction does, with its operands. -/
inductive Operation where
  | call (callee : ValueRef) (args : List ValueRef) (convention : CallingConv)
  | ret (value : Option ValueRef)
  | br (target : BlockRef)
  | condBr (cond : ValueRef) (ifTrue ifFalse : BlockRef)
  deriving DecidableEq, Repr, Inhabited

namespace Operation

def isTerminator : Operation → Bool
  | call .. => false
  | ret _ | br _ | condBr .. => true

def opcode : Operation → String
  | call .. => "call"
  | ret _ => "ret"
  | br _ | condBr .. => "br"

def isCall : Operation → Bool
  | call .. => true
  | _ => false

def isReturn : Operation → Bool
  | ret _ => true
  | _ => false

def isBranch : Operation → Bool
  | br _ | condBr .. => true
  | _ => false

/-- Value operands in order, the callee last. Branch targets are no values. -/
def operands : Operation → List ValueRef
  | call callee args _ => args ++ [callee]
  | ret value => value.toList
  | br _ => []
  | condBr cond _ _ => [cond]

def successors : Operation → List BlockRef
  | br target => [target]
  | condBr _ ifTrue ifFalse => [ifTrue, ifFalse]
  | _ => []

end Operation

structure GlobalRecord where
  module : ModuleRef
  /-- Type of the stored value; the global itself is a pointer to it. -/
  valueType : TypeRef
  isConstant : Bool
  linkage : Linkage
  initializer : Option ConstantRef
  threadLocal : ThreadLocalMode
  space : AddressSpace
  externallyInitialized : Bool
  deriving DecidableEq, Repr

structure FunctionRecord where
  module : ModuleRef
  signature : FunctionTypeRef
  linkage : Linkage
  convention : CallingConv := .c
  args : List ArgumentRef := []
  blocks : List BlockRef := []
  names : NameTable := .ofFunction
  deriving DecidableEq, Repr

structure ArgumentRecord where
  parent : FunctionRef
  position : Nat
  deriving DecidableEq, Repr

structure InstructionRecord where
  parent : BlockRef
  operation : Operation
  deriving DecidableEq, Repr

/-- Pointer arithmetic over a constant base: the type its indices walk through, base and indices. -/
structure ElementPtrRecord where
  sourceType : TypeRef
  base : ValueRef
  indices : List ValueRef
  inBounds : Bool
  deriving DecidableEq, Repr

inductive ValueKind where
  | int (value : WideInt)
  | bytes (bytes : List UInt8)
  | elementPtr (record : ElementPtrRecord)
  | global (record : GlobalRecord)
  | function (record : FunctionRecord)
  | argument (record : ArgumentRecord)
  | instruction (record : InstructionRecord)
  /-- What is left of a value whose module was erased. -/
  | erased
  deriving DecidableEq, Repr

instance : Inhabited ValueKind := ⟨.erased⟩

namespace ValueKind

def tag : ValueKind → String
  | int _ => "ConstantInt"
  | bytes _ => "ConstantDataArray"
  | elementPtr _ => "GetElementPtr"
  | global _ => "GlobalVariable"
  | function _ => "Function"
  | argument _ => "Argument"
  | instruction _ => "Instruction"
  | erased => "Erased"

def isConstant : ValueKind → Bool
  | int _ | bytes _ | elementPtr _ | global _ | function _ => true
  | _ => false

def isErased : ValueKind → Bool
  | erased => true
  | _ => false

end ValueKind

structure ValueRecord where
  type : TypeRef
  name : Option String := none
  kind : ValueKind
  deriving DecidableEq, Repr, Inhabited

structure BlockRecord where
  name : Option String
  parent : Option FunctionRef := none
  instructions : List InstructionRef := []
  erased : Bool := false
  deriving DecidableEq, Repr, Inhabited

structure ModuleRecord where
  name : String
  globals : List GlobalRef := []
  functions : List FunctionRef := []
  names : NameTable := .ofModule
  deriving DecidableEq, Repr

/-- Content of a uniqued constant; it is the key under which the constant is found again. -/
inductive ConstantKey where
  | int (value : WideInt)
  | bytes (bytes : List UInt8)
  | elementPtr (base : ValueRef) (indices : List ValueRef) (inBounds : Bool)
  deriving DecidableEq, Repr, Inhabited

end ModuleIR
