import ModuleIR.Proofs.WideInt.Words

set_option autoImplicit false

/-!
# Products of wide integers

Multiplying by a word and adding a word is exact modulo two to the width, and it reports lost bits
exactly when the unbounded result does not fit the width.
-/
namespace ModuleIR.WideInt

/-- Multiplying words from the lowest up: words and carry together stand for the product. -/
theorem foldl_mulAddStep (factor : UInt64) (addend : Nat) (words : List UInt64) :
    wordsToNat (words.foldl (mulAddStep factor) (#[], addend)).1.toList +
        2 ^ (64 * words.length) * (words.foldl (mulAddStep factor) (#[], addend)).2 =
      wordsToNat words * factor.toNat + addend := by
  induction words using List.reverseRecOn with
  | nil => simp [wordsToNat]
  | append_singleton low word ih =>
    have size := size_foldl_mulAddStep factor low (#[], addend)
    rw [List.foldl_append, List.foldl_cons, List.foldl_nil]
    generalize low.foldl (mulAddStep factor) (#[], addend) = done at ih size ⊢
    change done.1.size = 0 + low.length at size
    rw [Nat.zero_add] at size
    change wordsToNat (done.1.push (UInt64.ofNat (word.toNat * factor.toNat + done.2))).toList +
      _ * ((word.toNat * factor.toNat + done.2) / 2 ^ 64) = _
    rw [wordsToNat_push, size, wordsToNat_append, List.length_append, List.length_singleton,
      Nat.mul_succ, Nat.pow_add, UInt64.toNat_ofNat', Nat.mul_assoc, Nat.add_assoc, ← Nat.mul_add,
      Nat.mod_add_div]
    change _ = (_ + _ * (word.toNat + 2 ^ 64 * 0)) * _ + _
    generalize 2 ^ (64 * low.length) = weight at ih ⊢
    calc wordsToNat done.1.toList + weight * (word.toNat * factor.toNat + done.2)
        = wordsToNat done.1.toList + weight * done.2 + weight * word.toNat * factor.toNat := by ring
      _ = wordsToNat low * factor.toNat + addend + weight * word.toNat * factor.toNat := by rw [ih]
      _ = (wordsToNat low + weight * (word.toNat + 2 ^ 64 * 0)) * factor.toNat + addend := by ring

theorem and_not_eq_self {word mask : UInt64} : word &&& ~~~mask = word ↔ word &&& mask = 0 := by
  constructor
  · intro kept
    rw [← kept, UInt64.and_assoc, UInt64.not_and_self, UInt64.and_zero]
  · intro none
    have parts : (word &&& mask) ||| (word &&& ~~~mask) = word := by
      refine UInt64.eq_of_toBitVec_eq (BitVec.eq_of_getLsbD_eq fun i inside => ?_)
      simp only [UInt64.toBitVec_or, UInt64.toBitVec_and, UInt64.toBitVec_not, BitVec.getLsbD_or,
        BitVec.getLsbD_and, BitVec.getLsbD_not, inside, decide_true, Bool.true_and]
      cases word.toBitVec.getLsbD i <;> cases mask.toBitVec.getLsbD i <;> rfl
    rwa [none, UInt64.zero_or] at parts

theorem hasUnusedBits_iff {n : WideInt} (positive : 0 < n.bits)
    (size : n.words.size = wordCount n.bits) : n.hasUnusedBits = true ↔ 2 ^ n.bits ≤ n.toNat := by
  have cleared := toNat_clearUnusedBits positive size
  obtain ⟨bits, words⟩ := n
  have nonempty : 0 < words.size := by
    rw [size, wordCount]
    change 0 < bits at positive
    change 0 < (bits + 63) / 64
    omega
  obtain ⟨low, last, rfl⟩ := Array.exists_push_of_size_pos nonempty
  rw [toNat, words_clearUnusedBits, toNat, wordsToNat_push, wordsToNat_push] at cleared
  rw [hasUnusedBits, toNat, wordsToNat_push, Array.back?_push]
  change (last &&& unusedMask bits != 0) = true ↔ 2 ^ bits ≤ _
  rw [bne_iff_ne, ne_eq, ← and_not_eq_self, ← UInt64.toNat_inj]
  change _ = (wordsToNat low.toList + 2 ^ (64 * low.size) * last.toNat) % 2 ^ bits at cleared
  have weight := Nat.two_pow_pos (64 * low.size)
  rw [← not_lt, not_iff_not]
  constructor
  · intro kept
    rw [kept] at cleared
    rw [cleared]
    exact Nat.mod_lt _ (Nat.two_pow_pos _)
  · intro fits
    rw [Nat.mod_eq_of_lt fits] at cleared
    exact Nat.eq_of_mul_eq_mul_left weight (Nat.add_left_cancel cleared)

/-- Multiplication by a word and addition of a word are exact modulo two to the width, and bits are
lost exactly when the result does not fit. -/
theorem mulAdd_spec {n : WideInt} (h : n.Canonical) (factor addend : UInt64) :
    (n.mulAdd factor addend).1.toNat = (n.toNat * factor.toNat + addend.toNat) % 2 ^ n.bits ∧
      ((n.mulAdd factor addend).2 = true ↔
        2 ^ n.bits ≤ n.toNat * factor.toNat + addend.toNat) := by
  have value := foldl_mulAddStep factor addend.toNat n.words.toList
  have size := size_foldl_mulAddStep factor n.words.toList (#[], addend.toNat)
  change _ = 0 + _ at size
  rw [Nat.zero_add, Array.length_toList, h.size] at size
  rw [Array.length_toList, h.size] at value
  have done : n.mulAdd factor addend =
      (let step := n.words.toList.foldl (mulAddStep factor) (#[], addend.toNat)
       (clearUnusedBits ⟨n.bits, step.1⟩, step.2 != 0 || hasUnusedBits ⟨n.bits, step.1⟩)) := by
    rw [mulAdd, Array.foldl_toList]
  rw [done]
  generalize n.words.toList.foldl (mulAddStep factor) (#[], addend.toNat) = step at value size ⊢
  obtain ⟨words, carry⟩ := step
  have low := toNat_clearUnusedBits (n := ⟨n.bits, words⟩) h.positive size
  have unused := hasUnusedBits_iff (n := ⟨n.bits, words⟩) h.positive size
  obtain ⟨extra, wide⟩ : ∃ extra, 64 * wordCount n.bits = n.bits + extra :=
    ⟨64 * wordCount n.bits - n.bits, by rw [wordCount]; omega⟩
  change wordsToNat words.toList + _ * carry = n.toNat * _ + _ at value
  rw [wide, Nat.pow_add, Nat.mul_assoc] at value
  change _ = wordsToNat words.toList % 2 ^ n.bits at low
  change _ ↔ 2 ^ n.bits ≤ wordsToNat words.toList at unused
  refine ⟨?_, ?_⟩
  · rw [← value, Nat.add_mul_mod_self_left, low]
  · rw [Bool.or_eq_true, unused, bne_iff_ne, ← value]
    have positive := Nat.two_pow_pos extra
    constructor
    · rintro (carried | above)
      · have once : 2 ^ n.bits * 1 ≤ 2 ^ n.bits * (2 ^ extra * carry) :=
          Nat.mul_le_mul_left _ (Nat.mul_pos positive (Nat.pos_of_ne_zero carried))
        omega
      · omega
    · intro above
      by_cases carried : carry = 0
      · rw [carried] at above
        exact .inr (by simpa using above)
      · exact .inl carried

end ModuleIR.WideInt
