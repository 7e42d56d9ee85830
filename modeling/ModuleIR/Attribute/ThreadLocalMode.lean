set_option autoImplicit false

/-!
# Thread-local storage models

How a global is stored per thread. A global that is not thread local prints no keyword.
-/
namespace ModuleIR

inductive ThreadLocalMode where
  | notThreadLocal
  | generalDynamic
  | localDynamic
  | initialExec
  | localExec
  deriving DecidableEq, Repr, Inhabited

namespace ThreadLocalMode

def all : List ThreadLocalMode :=
  [notThreadLocal, generalDynamic, localDynamic, initialExec, localExec]

def code : ThreadLocalMode → Nat
  | notThreadLocal => 0
  | generalDynamic => 1
  | localDynamic => 2
  | initialExec => 3
  | localExec => 4

def name : ThreadLocalMode → String
  | notThreadLocal => "NotThreadLocal"
  | generalDynamic => "GeneralDynamic"
  | localDynamic => "LocalDynamic"
  | initialExec => "InitialExec"
  | localExec => "LocalExec"

def keyword? : ThreadLocalMode → Option String
  | notThreadLocal => none
  | generalDynamic => some "thread_local"
  | localDynamic => some "thread_local(localdynamic)"
  | initialExec => some "thread_local(initialexec)"
  | localExec => some "thread_local(localexec)"

def ofCode? (code : Nat) : Option ThreadLocalMode := all.find? (·.code == code)

def ofName? (name : String) : Option ThreadLocalMode := all.find? (·.name == name)

theorem ofCode?_code (m : ThreadLocalMode) : ofCode? m.code = some m := by cases m <;> rfl

theorem ofName?_name (m : ThreadLocalMode) : ofName? m.name = some m := by cases m <;> rfl

end ThreadLocalMode
end ModuleIR
