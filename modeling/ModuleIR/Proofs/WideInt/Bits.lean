import ModuleIR.Proofs.WideInt.Words

set_option autoImplicit false

/-!
# Bits of wide integers

A bit of a word is a bit of the value. The sign bit is set exactly when a canonical integer reaches
half of two to the width, and it is the only one exactly when the value is that half.
-/
namespace ModuleIR.WideInt

theorem testBit_wordsToNat (words : List UInt64) (i : Nat) :
    (wordsToNat words).testBit i = (words.getD (i / 64) 0).toNat.testBit (i % 64) := by
  induction words generalizing i with
  | nil => simp [wordsToNat]
  | cons word rest ih =>
    rw [wordsToNat_cons, Nat.add_comm, Nat.testBit_two_pow_mul_add _ word.toNat_lt]
    by_cases low : i < 64
    · rw [if_pos low, Nat.div_eq_of_lt low, Nat.mod_eq_of_lt low, List.getD_cons_zero]
    · obtain ⟨j, rfl⟩ : ∃ j, i = j + 64 := ⟨i - 64, by omega⟩
      rw [if_neg low, Nat.add_sub_cancel, ih, Nat.add_div_right j (by decide), Nat.add_mod_right,
        List.getD_cons_succ]

theorem testBit_toNat (n : WideInt) (i : Nat) :
    n.toNat.testBit i = (n.words.getD (i / 64) 0).toNat.testBit (i % 64) := by
  rw [toNat, testBit_wordsToNat]
  congr 2
  rw [List.getD_eq_getElem?_getD, Array.getElem?_toList, Array.getD_eq_getD_getElem?]

/-! ### The sign bit -/

theorem isNegative_eq_testBit (n : WideInt) : n.isNegative = n.toNat.testBit (n.bits - 1) := by
  rw [testBit_toNat, isNegative]
  generalize n.words.getD ((n.bits - 1) / 64) 0 = word
  have small : (n.bits - 1) % 64 < 64 := Nat.mod_lt _ (by decide)
  generalize (n.bits - 1) % 64 = j at small
  have shifted : (word >>> UInt64.ofNat j &&& 1).toNat = word.toNat >>> j &&& 1 := by
    rw [UInt64.toNat_and, UInt64.toNat_shiftRight, UInt64.toNat_ofNat_of_lt' (by
      change j < 2 ^ 64
      omega), Nat.mod_eq_of_lt small]
    rfl
  rw [Bool.eq_iff_iff, beq_iff_eq, ← UInt64.toNat_inj, shifted, Nat.testBit_eq_decide_div_mod_eq,
    decide_eq_true_iff, Nat.and_one_is_mod, Nat.shiftRight_eq_div_pow]
  rfl

theorem isNegative_iff {n : WideInt} (h : n.Canonical) :
    n.isNegative = true ↔ 2 ^ (n.bits - 1) ≤ n.toNat := by
  have positive := h.positive
  have bound : n.toNat < 2 ^ (n.bits - 1) * 2 := by
    rw [← Nat.pow_succ, Nat.succ_eq_add_one, Nat.sub_add_cancel positive]
    exact h.bound
  rw [isNegative_eq_testBit, Nat.testBit_eq_decide_div_mod_eq, decide_eq_true_iff]
  have half : n.toNat / 2 ^ (n.bits - 1) < 2 := Nat.div_lt_of_lt_mul bound
  rw [Nat.mod_eq_of_lt half, ← Nat.one_le_div_iff (Nat.two_pow_pos _)]
  omega

/-! ### The least integer -/

def clearBit (n : WideInt) (k : Nat) : WideInt :=
  { n with words := n.words.modify (k / 64) (· &&& ~~~((1 : UInt64) <<< UInt64.ofNat (k % 64))) }

theorem testBit_clearBit_word (word : UInt64) {j b : Nat} (small : j < 64) (below : b < 64) :
    (word &&& ~~~((1 : UInt64) <<< UInt64.ofNat j)).toNat.testBit b =
      (word.toNat.testBit b && decide (b ≠ j)) := by
  have shift : (UInt64.ofNat j).toNat % 64 = j := by
    rw [UInt64.toNat_ofNat_of_lt' (by change j < 2 ^ 64; omega), Nat.mod_eq_of_lt small]
  have one : ((1 : UInt64) <<< UInt64.ofNat j).toNat = 2 ^ j := by
    rw [UInt64.toNat_shiftLeft, shift]
    change 1 <<< j % 2 ^ 64 = 2 ^ j
    rw [Nat.one_shiftLeft, Nat.mod_eq_of_lt (Nat.pow_lt_pow_right (by decide) small)]
  have mask : (~~~((1 : UInt64) <<< UInt64.ofNat j)).toNat.testBit b = decide (b ≠ j) := by
    rw [UInt64.toNat_not, one]
    change (2 ^ 64 - 1 - 2 ^ j).testBit b = _
    rw [Nat.sub_sub, Nat.add_comm, Nat.testBit_two_pow_sub_succ
      (Nat.pow_lt_pow_right (by decide) small), Nat.testBit_two_pow]
    simp [below, eq_comm]
  rw [UInt64.toNat_and, Nat.testBit_and, mask]

theorem testBit_clearBit (n : WideInt) (k i : Nat) :
    (n.clearBit k).toNat.testBit i = (n.toNat.testBit i && decide (i ≠ k)) := by
  rw [testBit_toNat, testBit_toNat, clearBit, Array.getD_eq_getD_getElem?,
    Array.getD_eq_getD_getElem?, Array.getElem?_modify]
  have small (k : Nat) : k % 64 < 64 := Nat.mod_lt k (by decide)
  by_cases same : k / 64 = i / 64
  · have apart : i ≠ k ↔ i % 64 ≠ k % 64 := by omega
    rw [if_pos same]
    simp only [apart]
    cases n.words[i / 64]? with
    | none => simp
    | some word => exact testBit_clearBit_word word (small k) (small i)
  · have apart : i ≠ k := by omega
    rw [if_neg same, decide_eq_true apart, Bool.and_true]

theorem isLeast_iff {n : WideInt} : n.isLeast = true ↔ n.toNat = 2 ^ (n.bits - 1) := by
  have cleared : n.isLeast = (n.isNegative && (n.clearBit (n.bits - 1)).isZero) := rfl
  rw [cleared, Bool.and_eq_true, isZero_iff, isNegative_eq_testBit]
  constructor
  · rintro ⟨top, rest⟩
    refine Nat.eq_of_testBit_eq fun i => ?_
    have others := testBit_clearBit n (n.bits - 1) i
    rw [rest, Nat.zero_testBit] at others
    rw [Nat.testBit_two_pow]
    by_cases here : n.bits - 1 = i
    · rw [← here, top, decide_eq_true rfl]
    · simpa [here, Ne.symm here] using others.symm
  · intro value
    refine ⟨by rw [value, Nat.testBit_two_pow_self], Nat.eq_of_testBit_eq fun i => ?_⟩
    rw [testBit_clearBit, value, Nat.testBit_two_pow, Nat.zero_testBit]
    by_cases here : n.bits - 1 = i <;> simp [here]

end ModuleIR.WideInt
