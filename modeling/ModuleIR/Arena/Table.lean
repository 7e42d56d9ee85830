set_option autoImplicit false

/-!
# Finite tables

A table binds keys to entries, each key at most once, in the order of binding. The view of a table
is `find?`; the lemmas say what each operation does to it.
-/
namespace ModuleIR

structure Table (κ α : Type) where
  entries : List (κ × α) := []
  deriving DecidableEq, Repr

namespace Table

variable {κ α : Type} [DecidableEq κ]

def empty : Table κ α := ⟨[]⟩

def find? (t : Table κ α) (k : κ) : Option α := t.entries.lookup k

def contains (t : Table κ α) (k : κ) : Bool := (t.find? k).isSome

def size (t : Table κ α) : Nat := t.entries.length

def keys (t : Table κ α) : List κ := t.entries.map (·.1)

def erase (t : Table κ α) (k : κ) : Table κ α := ⟨t.entries.filter fun entry => entry.1 ≠ k⟩

def insert (t : Table κ α) (k : κ) (a : α) : Table κ α := ⟨(t.erase k).entries ++ [(k, a)]⟩

def filterEntries (t : Table κ α) (keep : α → Bool) : Table κ α :=
  ⟨t.entries.filter fun entry => keep entry.2⟩

@[simp] theorem find?_empty (k : κ) : (empty : Table κ α).find? k = none := rfl

theorem lookup_cons (entry : κ × α) (rest : List (κ × α)) (j : κ) :
    (entry :: rest).lookup j = if j = entry.1 then some entry.2 else rest.lookup j := by
  obtain ⟨k, a⟩ := entry
  rw [List.lookup_cons]
  by_cases h : j = k
  · simp [h]
  · have hb : (j == k) = false := by simpa using h
    simp [h, hb]

theorem lookup_filter_ne (entries : List (κ × α)) (j k : κ) :
    (entries.filter fun entry => entry.1 ≠ k).lookup j =
      if j = k then none else entries.lookup j := by
  induction entries with
  | nil => simp
  | cons entry rest ih =>
    by_cases hk : entry.1 = k
    · rw [List.filter_cons_of_neg (by simp [hk]), ih, lookup_cons]
      by_cases hj : j = k <;> simp [hj, hk]
    · rw [List.filter_cons_of_pos (by simp [hk]), lookup_cons, lookup_cons, ih]
      by_cases hj : j = entry.1 <;> simp [hj, hk]

theorem find?_erase (t : Table κ α) (j k : κ) :
    (t.erase k).find? j = if j = k then none else t.find? j :=
  lookup_filter_ne t.entries j k

theorem find?_insert (t : Table κ α) (j k : κ) (a : α) :
    (t.insert k a).find? j = if j = k then some a else t.find? j := by
  have erased := find?_erase t j k
  simp only [find?, insert] at erased ⊢
  rw [List.lookup_append, erased, lookup_cons]
  by_cases same : j = k <;> simp [same]

end Table
end ModuleIR
