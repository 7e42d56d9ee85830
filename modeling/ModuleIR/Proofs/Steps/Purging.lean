import ModuleIR.Build.Modules
import ModuleIR.Proofs.Arena.Reads
import ModuleIR.Proofs.Arena.Running

set_option autoImplicit false

/-!
# The rounds of the purge

A purge goes round until it finds nothing dead, and has no bound of its own. Only pointer arithmetic
dies. A round takes all that is dead out of the table of constants, so that each round but the last
leaves fewer pointers there: this ends it in every context, also in one that an erasure has half walked.
-/
namespace ModuleIR

def ConstantKey.isElementPtr : ConstantKey → Bool
  | .elementPtr .. => true
  | _ => false

namespace Context

open Running

def pointerEntries (ctx : Context) : Nat :=
  ctx.constantTable.entries.countP (·.1.isElementPtr)

/-- The purge as the loop that it is, if so many rounds are made. The last one finds nothing dead. -/
def purgeRunning (ctx : Context) : Nat → Running Context
  | 0 => still
  | rounds + 1 => do
    let dead ← ctx.deadConstants
    if dead.isEmpty then return ctx else (← ctx.dropConstants dead).purgeRunning rounds

variable {c c' : Context} {dead : List ValueRef}

theorem eraseValue_eq_ok {v : ValueRef} : c.eraseValue v = .ok c' ↔
    v.ctx = c.id ∧ (∃ r, c.values[v.index]? = some r) ∧
      c' = c.modifyValue v ValueRecord.tombstone := by
  unfold eraseValue
  simp only [Checked.bind_eq_ok, checkOwner_eq_ok]
  cases c.values[v.index]? <;> simp [eq_comm]

theorem eraseBlock_eq_ok {b : BlockRef} : c.eraseBlock b = .ok c' ↔
    b.ctx = c.id ∧ (∃ r, c.blocks[b.index]? = some r) ∧
      c' = c.modifyBlock b BlockRecord.tombstone := by
  unfold eraseBlock
  simp only [Checked.bind_eq_ok, checkOwner_eq_ok]
  cases c.blocks[b.index]? <;> simp [eq_comm]

/-! ### The table of constants -/

theorem constantTable_eraseValue {v : ValueRef} (run : c.eraseValue v = .ok c') :
    c'.constantTable = c.constantTable := by
  obtain ⟨_, _, rfl⟩ := eraseValue_eq_ok.mp run
  rfl

theorem constantTable_foldlM {α : Type} {step : Context → α → Checked Context}
    (keeps : ∀ c x c', step c x = .ok c' → c'.constantTable = c.constantTable) {xs : List α}
    (run : xs.foldlM step c = .ok c') : c'.constantTable = c.constantTable := by
  induction xs generalizing c with
  | nil =>
    obtain rfl := Except.ok.inj run
    rfl
  | cons x rest ih =>
    obtain ⟨mid, first, others⟩ := Checked.foldlM_cons_eq_ok.mp run
    exact (ih others).trans (keeps c x mid first)

theorem entries_dropConstants (run : c.dropConstants dead = .ok c') :
    c'.constantTable.entries =
      c.constantTable.entries.filter fun entry => !dead.contains entry.2 := by
  obtain ⟨erased, walked, same⟩ := Checked.bind_eq_ok.mp run
  obtain rfl := Except.ok.inj same
  have kept : erased.constantTable = c.constantTable :=
    constantTable_foldlM (fun _ _ _ => constantTable_eraseValue) walked
  rw [← kept]
  rfl

/-! ### What is dead -/

theorem mem_deadAmong {entries : List (ConstantKey × ValueRef)}
    (found : c.deadAmong entries = .ok dead) {v : ValueRef} :
    v ∈ dead ↔ ∃ key, (key, v) ∈ entries ∧ c.isDeadKey key = .ok true := by
  induction entries generalizing dead with
  | nil =>
    obtain rfl := Except.ok.inj found
    simp
  | cons entry rest ih =>
    obtain ⟨key, u⟩ := entry
    obtain ⟨gone, decided, walked⟩ := Checked.bind_eq_ok.mp found
    obtain ⟨others, rest', same⟩ := Checked.bind_eq_ok.mp walked
    obtain rfl := Except.ok.inj same
    have mem := ih rest'
    have first : (∃ key', (key', v) = (key, u) ∧ c.isDeadKey key' = .ok true) ↔
        v = u ∧ gone = true := by
      simp only [Prod.mk.injEq, and_assoc, exists_eq_left, decided, Except.ok.injEq]
    simp only [List.mem_cons, or_and_right, exists_or, first, ← mem]
    cases gone <;> simp

theorem deadAmong_ends {entries : List (ConstantKey × ValueRef)}
    (each : ∀ entry ∈ entries, ∃ gone, c.isDeadKey entry.1 = .ok gone) :
    ∃ dead, c.deadAmong entries = .ok dead := by
  induction entries with
  | nil => exact ⟨[], rfl⟩
  | cons entry rest ih =>
    rw [List.forall_mem_cons] at each
    obtain ⟨⟨gone, decided⟩, each⟩ := each
    obtain ⟨others, found⟩ := ih each
    exact ⟨_, by rw [deadAmong, decided, Checked.ok_bind, found, Checked.ok_bind]; rfl⟩

theorem isElementPtr_of_isDeadKey {key : ConstantKey} (gone : c.isDeadKey key = .ok true) :
    key.isElementPtr = true := by
  cases key with
  | elementPtr => rfl
  | int | bytes => cases gone

/-! ### The rounds -/

theorem pointerEntries_le_size (c : Context) : c.pointerEntries ≤ c.constantTable.size :=
  List.countP_le_length

/-- A round that finds something dead takes a pointer out of the table. -/
theorem pointerEntries_round (found : c.deadConstants = .ok dead) (some : dead ≠ [])
    (run : c.dropConstants dead = .ok c') : c'.pointerEntries < c.pointerEntries := by
  obtain ⟨v, mem⟩ := List.exists_mem_of_ne_nil _ some
  obtain ⟨key, listed, gone⟩ := (mem_deadAmong found).mp mem
  have parts := List.countP_eq_countP_filter_add c.constantTable.entries (·.1.isElementPtr)
    fun entry => !dead.contains entry.2
  have taken : 0 < (c.constantTable.entries.filter fun entry =>
      !!dead.contains entry.2).countP (·.1.isElementPtr) :=
    List.countP_pos_iff.mpr ⟨(key, v), List.mem_filter.mpr ⟨listed, by simpa using mem⟩,
      isElementPtr_of_isDeadKey gone⟩
  rw [pointerEntries, pointerEntries, entries_dropConstants run, parts]
  omega

/-- As many rounds as there are pointers, and one that finds nothing, are all that the loop makes. -/
theorem purgeRunning_within {rounds bound : Nat} (enough : c.pointerEntries < rounds)
    (within : c.pointerEntries < bound) : c.purgeRunning rounds = ended (c.purgeWithin bound) := by
  induction rounds generalizing c bound with
  | zero => omega
  | succ rounds ih =>
    obtain ⟨bound, rfl⟩ := Nat.exists_eq_succ_of_ne_zero (by omega : bound ≠ 0)
    rw [purgeRunning, purgeWithin, liftM_eq]
    cases found : c.deadConstants with
    | error violation => rfl
    | ok dead =>
      rw [ok_bind, Checked.ok_bind]
      by_cases none : dead = []
      · simp [none]
      · have go : ¬dead.isEmpty = true := by simpa using none
        rw [if_neg go, if_neg go, liftM_eq]
        cases run : c.dropConstants dead with
        | error violation => rfl
        | ok c' =>
          have shrinks := pointerEntries_round found none run
          exact ih (by omega) (by omega)

theorem purgeRunning_eq {rounds : Nat} (enough : c.pointerEntries < rounds) :
    c.purgeRunning rounds = ended c.purgeConstants :=
  purgeRunning_within enough (Nat.lt_succ_of_le (pointerEntries_le_size c))

theorem deadConstants_purgeRunning {purged : Context} {rounds : Nat}
    (run : c.purgeRunning rounds = ended (.ok purged)) : purged.deadConstants = .ok [] := by
  induction rounds generalizing c with
  | zero => cases run
  | succ rounds ih =>
    rw [purgeRunning, liftM_eq] at run
    cases found : c.deadConstants with
    | error violation =>
      rw [found] at run
      cases run
    | ok dead =>
      rw [found, ok_bind] at run
      by_cases none : dead = []
      · subst none
        cases run
        exact found
      · have go : ¬dead.isEmpty = true := by simpa using none
        rw [if_neg go, liftM_eq] at run
        cases dropped : c.dropConstants dead with
        | error violation =>
          rw [dropped] at run
          cases run
        | ok c' =>
          rw [dropped] at run
          exact ih run

end Context
end ModuleIR
