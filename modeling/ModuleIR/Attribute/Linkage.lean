set_option autoImplicit false

/-!
# Linkage of globals and functions

The closed set of linkages, each with its stable numeric code, the keyword that the textual form
prints and the two questions the checks ask: may a declaration carry it, and is the symbol local.
-/
namespace ModuleIR

inductive Linkage where
  | external
  | availableExternally
  | linkOnceAny
  | linkOnceOdr
  | weakAny
  | weakOdr
  | appending
  | internal
  | privateSymbol
  | externalWeak
  | common
  deriving DecidableEq, Repr, Inhabited

namespace Linkage

def all : List Linkage :=
  [external, availableExternally, linkOnceAny, linkOnceOdr, weakAny, weakOdr, appending, internal,
    privateSymbol, externalWeak, common]

def code : Linkage → Nat
  | external => 0
  | availableExternally => 1
  | linkOnceAny => 2
  | linkOnceOdr => 3
  | weakAny => 4
  | weakOdr => 5
  | appending => 6
  | internal => 7
  | privateSymbol => 8
  | externalWeak => 9
  | common => 10

def name : Linkage → String
  | external => "External"
  | availableExternally => "AvailableExternally"
  | linkOnceAny => "LinkOnceAny"
  | linkOnceOdr => "LinkOnceOdr"
  | weakAny => "WeakAny"
  | weakOdr => "WeakOdr"
  | appending => "Appending"
  | internal => "Internal"
  | privateSymbol => "Private"
  | externalWeak => "ExternalWeak"
  | common => "Common"

/-- Keyword of the textual form; external linkage is implicit and has none. -/
def keyword : Linkage → String
  | external => ""
  | availableExternally => "available_externally"
  | linkOnceAny => "linkonce"
  | linkOnceOdr => "linkonce_odr"
  | weakAny => "weak"
  | weakOdr => "weak_odr"
  | appending => "appending"
  | internal => "internal"
  | privateSymbol => "private"
  | externalWeak => "extern_weak"
  | common => "common"

def ofCode? (code : Nat) : Option Linkage := all.find? (·.code == code)

def ofName? (name : String) : Option Linkage := all.find? (·.name == name)

def validForDeclaration : Linkage → Bool
  | external | externalWeak => true
  | _ => false

def isLocal : Linkage → Bool
  | internal | privateSymbol => true
  | _ => false

theorem ofCode?_code (l : Linkage) : ofCode? l.code = some l := by cases l <;> rfl

theorem ofName?_name (l : Linkage) : ofName? l.name = some l := by cases l <;> rfl

end Linkage
end ModuleIR
