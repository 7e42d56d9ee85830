import Mathlib.Data.Finset.Card
import ModuleIR.Arena.NameTable

set_option autoImplicit false

/-!
# Fresh names

A name that is entered under a clash is tried with one counter after the other. The candidates are
all different, and one more of them is tried than names are bound, so that the one that is taken is
free. `find?_rebind` says what a renaming does to a table: the old name is given up, the new name is
bound to the symbol, and every other name is bound as it was.
-/
namespace ModuleIR

namespace Table

variable {κ α : Type} [DecidableEq κ] {t : Table κ α} {k : κ}

theorem contains_iff_mem_keys : t.contains k = true ↔ k ∈ t.keys := by
  obtain ⟨entries⟩ := t
  change (entries.lookup k).isSome = true ↔ k ∈ entries.map (·.1)
  induction entries with
  | nil => simp
  | cons entry rest ih =>
    rw [lookup_cons, List.map_cons, List.mem_cons, ← ih]
    by_cases same : k = entry.1 <;> simp [same]

omit [DecidableEq κ] in
theorem length_keys : t.keys.length = t.size := List.length_map _

end Table

namespace NameTable

variable {t : NameTable} {base name : String} {symbol x : Symbol}

theorem candidate_injective {i j : Nat} (same : t.candidate base i = t.candidate base j) :
    i = j := by
  have digits : i.repr = j.repr := (String.append_right_inj _).mp same
  have lists : Nat.toDigits 10 i = Nat.toDigits 10 j := by
    rw [← Nat.toList_repr, digits, Nat.toList_repr]
  rw [← Nat.ofDigitChars_ten_toDigits (n := i), lists, Nat.ofDigitChars_ten_toDigits]

def boundNames (t : NameTable) : Finset String := t.bindings.keys.toFinset

theorem mem_boundNames : name ∈ t.boundNames ↔ t.bindings.contains name = true := by
  rw [boundNames, List.mem_toFinset, Table.contains_iff_mem_keys]

theorem card_boundNames_le (t : NameTable) : t.boundNames.card ≤ t.bindings.size :=
  (List.toFinset_card_le _).trans_eq Table.length_keys

def candidates (t : NameTable) (base : String) (start count : Nat) : Finset String :=
  (Finset.range count).image fun i => t.candidate base (start + i)

theorem card_candidates (t : NameTable) (base : String) (start count : Nat) :
    (t.candidates base start count).card = count := by
  have different : Function.Injective fun i => t.candidate base (start + i) := fun i j same =>
    Nat.add_left_cancel (candidate_injective same)
  rw [candidates, Finset.card_image_of_injective _ different, Finset.card_range]

theorem candidates_subset {start count : Nat}
    (taken : ∀ i < count, t.bindings.contains (t.candidate base (start + i)) = true) :
    t.candidates base start count ⊆ t.boundNames := by
  intro name mem
  obtain ⟨i, inside, rfl⟩ := Finset.mem_image.mp mem
  exact mem_boundNames.mpr (taken i (Finset.mem_range.mp inside))

/-- The search passes over bound candidates, to a free one unless its tries are used up. -/
theorem freeSuffix_eq (t : NameTable) (base : String) (tries start : Nat) :
    ∃ passed, t.freeSuffix base tries start = start + passed ∧
      (∀ i < passed, t.bindings.contains (t.candidate base (start + i)) = true) ∧
      (passed = tries ∨ t.bindings.contains (t.candidate base (start + passed)) = false) := by
  induction tries generalizing start with
  | zero => exact ⟨0, rfl, fun i inside => absurd inside (Nat.not_lt_zero i), .inl rfl⟩
  | succ tries ih =>
    rw [freeSuffix]
    cases first : t.bindings.contains (t.candidate base start) with
    | false => exact ⟨0, rfl, fun i inside => absurd inside (Nat.not_lt_zero i), .inr first⟩
    | true =>
      obtain ⟨passed, ends, taken, done⟩ := ih (start + 1)
      have shift (i : Nat) : start + 1 + i = start + (i + 1) := by omega
      rw [if_pos rfl]
      simp only [shift] at ends taken done
      refine ⟨passed + 1, ends, fun i inside => ?_, done.imp_left (congrArg (· + 1))⟩
      cases i with
      | zero => exact first
      | succ i => exact taken i (by omega)

/-- As many tries as names are bound leave a free candidate. -/
theorem candidate_freeSuffix (t : NameTable) (base : String) (start : Nat) :
    t.bindings.contains (t.candidate base (t.freeSuffix base t.bindings.size start)) = false := by
  obtain ⟨passed, ends, taken, all | free⟩ := t.freeSuffix_eq base t.bindings.size start
  · rw [ends]
    apply Decidable.byContradiction
    intro last
    rw [Bool.not_eq_false] at last
    have inside : t.candidates base start (passed + 1) ⊆ t.boundNames := by
      refine candidates_subset fun i small => ?_
      rcases Nat.lt_succ_iff_lt_or_eq.mp small with before | rfl
      · exact taken i before
      · exact last
    have few := Finset.card_le_card inside
    have bound := t.card_boundNames_le
    rw [card_candidates] at few
    omega
  · rw [ends]
    exact free

theorem find?_eq_none_of_contains (free : t.bindings.contains name = false) :
    t.find? name = none := by
  rw [Table.contains, Option.isSome_eq_false_iff, Option.isNone_iff_eq_none] at free
  exact free

theorem insertUnique_free (t : NameTable) (base : String) (symbol : Symbol) :
    t.find? (t.insertUnique base symbol).1 = none := by
  unfold insertUnique
  cases taken : t.bindings.contains base with
  | false => exact find?_eq_none_of_contains taken
  | true => exact find?_eq_none_of_contains (t.candidate_freeSuffix base _)

theorem find?_insertUnique (t : NameTable) (base : String) (symbol : Symbol) (name : String) :
    (t.insertUnique base symbol).2.find? name =
      if name = (t.insertUnique base symbol).1 then some symbol else t.find? name := by
  unfold insertUnique
  cases t.bindings.contains base with
  | false => exact find?_bind t base name symbol
  | true => exact find?_bind _ _ name symbol

theorem insertUnique_ne_empty (t : NameTable) (symbol : Symbol) (some : base ≠ "") :
    (t.insertUnique base symbol).1 ≠ "" := by
  unfold insertUnique
  cases t.bindings.contains base with
  | false => exact some
  | true =>
    intro empty
    have both : base ++ t.separator = "" ∧ _ := String.append_eq_empty_iff.mp empty
    exact some (String.append_eq_empty_iff.mp both.1).1

/-! ### Renaming -/

variable {old bound : Option String} {t' : NameTable}

def released (t : NameTable) : Option String → NameTable
  | some previous => t.release previous
  | none => t

theorem find?_released {n : String} :
    (t.released old).find? n = some x ↔ old ≠ some n ∧ t.find? n = some x := by
  cases old with
  | none => simp [released]
  | some previous =>
    rw [released, find?_release]
    by_cases same : n = previous
    · simp [same]
    · simp [same, Ne.symm same]

theorem rebind_eq : t.rebind old name symbol =
    if name.isEmpty then (none, t.released old)
    else (some ((t.released old).insertUnique name symbol).1,
      ((t.released old).insertUnique name symbol).2) := by
  cases old <;> rfl

theorem find?_rebind (run : t.rebind old name symbol = (bound, t')) (n : String) :
    t'.find? n = some x ↔ (x = symbol ∧ bound = some n) ∨ (old ≠ some n ∧ t.find? n = some x) := by
  rw [← find?_released]
  rw [rebind_eq] at run
  split at run
  · obtain ⟨rfl, rfl⟩ := Prod.mk.inj run
    simp
  · obtain ⟨rfl, rfl⟩ := Prod.mk.inj run
    have free := insertUnique_free (t.released old) name symbol
    rw [find?_insertUnique]
    split
    · rename_i same
      rw [same, free]
      simp [eq_comm]
    · rename_i other
      have apart : ((t.released old).insertUnique name symbol).1 ≠ n := Ne.symm other
      simp [apart]

theorem rebind_ne_empty (run : t.rebind old name symbol = (bound, t')) : bound ≠ some "" := by
  rw [rebind_eq] at run
  split at run
  · obtain ⟨rfl, _⟩ := Prod.mk.inj run
    simp
  · rename_i filled
    obtain ⟨rfl, _⟩ := Prod.mk.inj run
    have some : name ≠ "" := by simpa using filled
    intro empty
    exact insertUnique_ne_empty _ symbol some (Option.some.inj empty)

end NameTable
end ModuleIR
