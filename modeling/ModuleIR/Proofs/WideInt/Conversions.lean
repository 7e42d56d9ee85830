import ModuleIR.Proofs.WideInt.Words

set_option autoImplicit false

/-!
# Wide integers from signed words

The words above the lowest continue the sign, so that the value is congruent to the signed word modulo
two to the width.
-/
namespace ModuleIR.WideInt

theorem wordsToNat_replicate_ones (count : Nat) :
    wordsToNat (List.replicate count (~~~(0 : UInt64))) + 1 = 2 ^ (64 * count) := by
  induction count with
  | zero => rfl
  | succ count ih =>
    rw [List.replicate_succ, wordsToNat_cons, Nat.mul_succ, Nat.pow_add, ← ih,
      show (~~~(0 : UInt64)).toNat = 2 ^ 64 - 1 from rfl]
    omega

theorem toNat_toUInt64 (value : Int64) :
    (value.toUInt64.toNat : Int) = value.toInt + if value < 0 then 2 ^ 64 else 0 := by
  have signed : value.toInt = if 2 * value.toUInt64.toNat < 2 ^ 64 then (value.toUInt64.toNat : Int)
      else value.toUInt64.toNat - (2 ^ 64 : Nat) := BitVec.toInt_eq_toNat_cond value.toBitVec
  have negative : value < 0 ↔ value.toInt < 0 := by rw [Int64.lt_iff_toInt_lt, Int64.toInt_zero]
  have below := value.toUInt64.toNat_lt
  by_cases sign : value < 0
  · have below_zero := negative.mp sign
    rw [if_pos sign]
    split at signed <;> omega
  · have above := mt negative.mpr sign
    rw [if_neg sign]
    split at signed <;> omega

/-- A word under the continuation of its sign stands for the signed word, modulo all words. -/
theorem wordsToNat_signed (value : Int64) (count : Nat) :
    (wordsToNat (value.toUInt64 :: List.replicate count (if value < 0 then ~~~0 else 0)) : Int) =
      value.toInt + if value < 0 then 2 ^ (64 * (count + 1)) else 0 := by
  have low := toNat_toUInt64 value
  rw [wordsToNat_cons]
  split
  · rename_i negative
    rw [if_pos negative] at low
    have ones : (wordsToNat (List.replicate count (~~~(0 : UInt64))) : Int) + 1 = 2 ^ (64 * count) := by
      exact_mod_cast wordsToNat_replicate_ones count
    push_cast
    rw [low, Nat.mul_succ, pow_add, ← ones]
    ring
  · rename_i positive
    rw [if_neg positive] at low
    rw [wordsToNat_replicate_zeros, Nat.mul_zero, Nat.add_zero, low]

theorem toNat_ofInt64 {bits : Nat} (positive : 0 < bits) (value : Int64) :
    ((ofInt64 bits value).toNat : Int) = value.toInt % 2 ^ bits := by
  obtain ⟨count, words⟩ : ∃ count, wordCount bits = count + 1 :=
    ⟨wordCount bits - 1, by unfold wordCount; omega⟩
  have inside : bits ≤ 64 * (count + 1) := by
    rw [← words, wordCount]
    omega
  have size : (((Array.replicate (wordCount bits) (if value < 0 then ~~~0 else 0)).modify 0
      fun _ => value.toUInt64).size : Nat) = wordCount bits := by
    rw [Array.size_modify, Array.size_replicate]
  have list : ((Array.replicate (wordCount bits) (if value < 0 then ~~~0 else 0)).modify 0
      fun _ => value.toUInt64).toList =
        value.toUInt64 :: List.replicate count (if value < 0 then ~~~0 else 0) := by
    rw [Array.toList_modify, Array.toList_replicate, words, List.replicate_succ]
    rfl
  have cleared := toNat_clearUnusedBits (n := ⟨bits, (Array.replicate (wordCount bits)
    (if value < 0 then ~~~0 else 0)).modify 0 fun _ => value.toUInt64⟩) positive size
  change (ofInt64 bits value).toNat = wordsToNat (Array.toList _) % 2 ^ bits at cleared
  rw [list] at cleared
  rw [cleared, Int.natCast_mod, wordsToNat_signed]
  push_cast
  split
  · obtain ⟨extra, wide⟩ : ∃ extra, 64 * (count + 1) = bits + extra := ⟨_, (by omega :
      64 * (count + 1) = bits + (64 * (count + 1) - bits))⟩
    rw [wide, pow_add, Int.add_mul_emod_self_left]
  · rw [Int.add_zero]

end ModuleIR.WideInt
