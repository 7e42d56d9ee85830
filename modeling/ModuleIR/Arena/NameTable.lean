import ModuleIR.Arena.Handle
import ModuleIR.Arena.Table

set_option autoImplicit false

/-!
# Name tables

A module keeps one table for its globals and functions, a function one for its arguments, blocks and
instructions. A name is bound at most once in a table; a clash is resolved by appending a separator
and a counter to the name asked for.
-/
namespace ModuleIR

inductive Symbol where
  | value (value : ValueRef)
  | block (block : BlockRef)
  deriving DecidableEq, Repr, Inhabited

structure NameTable where
  separator : String
  lastSuffix : Nat := 0
  bindings : Table String Symbol := .empty
  deriving DecidableEq, Repr

namespace NameTable

/-- An empty table of module-level names, where a clash gives `name.1`. -/
def ofModule : NameTable := { separator := "." }

/-- An empty table of function-level names, where a clash gives `name1`. -/
def ofFunction : NameTable := { separator := "" }

instance : Inhabited NameTable := ⟨ofModule⟩

def find? (t : NameTable) (name : String) : Option Symbol := t.bindings.find? name

def bind (t : NameTable) (name : String) (symbol : Symbol) : NameTable :=
  { t with bindings := t.bindings.insert name symbol }

def release (t : NameTable) (name : String) : NameTable :=
  { t with bindings := t.bindings.erase name }

def candidate (t : NameTable) (base : String) (suffix : Nat) : String :=
  base ++ t.separator ++ toString suffix

/-- The first suffix from `suffix` on whose candidate is unbound. Of more candidates than bound
names one is free, so trying as many as there are bindings leaves a free one. -/
def freeSuffix (t : NameTable) (base : String) : Nat → Nat → Nat
  | 0, suffix => suffix
  | tries + 1, suffix =>
    if t.bindings.contains (t.candidate base suffix) then freeSuffix t base tries (suffix + 1)
    else suffix

/-- Binds `symbol` to `base`, or to the next free candidate when `base` is taken. -/
def insertUnique (t : NameTable) (base : String) (symbol : Symbol) : String × NameTable :=
  if t.bindings.contains base then
    let suffix := t.freeSuffix base t.bindings.size (t.lastSuffix + 1)
    let name := t.candidate base suffix
    (name, { t with lastSuffix := suffix }.bind name symbol)
  else (base, t.bind base symbol)

/-- Releases `old` and binds `name`, made unique, to `symbol`. An empty name binds nothing. -/
def rebind (t : NameTable) (old : Option String) (name : String) (symbol : Symbol) :
    Option String × NameTable :=
  let released := match old with
    | some previous => t.release previous
    | none => t
  if name.isEmpty then (none, released)
  else
    let (bound, table) := released.insertUnique name symbol
    (some bound, table)

theorem find?_bind (t : NameTable) (name other : String) (symbol : Symbol) :
    (t.bind name symbol).find? other = if other = name then some symbol else t.find? other :=
  Table.find?_insert t.bindings other name symbol

theorem find?_release (t : NameTable) (name other : String) :
    (t.release name).find? other = if other = name then none else t.find? other :=
  Table.find?_erase t.bindings other name

theorem insertUnique_of_free (t : NameTable) (base : String) (symbol : Symbol)
    (h : t.find? base = none) : t.insertUnique base symbol = (base, t.bind base symbol) := by
  have hc : t.bindings.contains base = false := by
    rw [Table.contains, show t.bindings.find? base = none from h]
    rfl
  rw [insertUnique, hc]
  rfl

end NameTable
end ModuleIR
