set_option autoImplicit false

/-!
# Address spaces

The address spaces a pointer can point into. The generic one has code 0 and is not printed.
-/
namespace ModuleIR

inductive AddressSpace where
  | generic
  | global
  | shared
  | const
  | localMemory
  | param
  deriving DecidableEq, Repr, Inhabited

namespace AddressSpace

def all : List AddressSpace := [generic, global, shared, const, localMemory, param]

def code : AddressSpace → Nat
  | generic => 0
  | global => 1
  | shared => 3
  | const => 4
  | localMemory => 5
  | param => 101

def name : AddressSpace → String
  | generic => "Generic"
  | global => "Global"
  | shared => "Shared"
  | const => "Const"
  | localMemory => "Local"
  | param => "Param"

def ofCode? (code : Nat) : Option AddressSpace := all.find? (·.code == code)

def ofName? (name : String) : Option AddressSpace := all.find? (·.name == name)

def text (space : AddressSpace) : String :=
  if space = .generic then "" else " addrspace(" ++ toString space.code ++ ")"

theorem ofCode?_code (s : AddressSpace) : ofCode? s.code = some s := by cases s <;> rfl

theorem ofName?_name (s : AddressSpace) : ofName? s.name = some s := by cases s <;> rfl

end AddressSpace
end ModuleIR
