import Mathlib.Tactic.Positivity
import Mathlib.Tactic.Ring
import ModuleIR.Proofs.World.Request

set_option autoImplicit false

/-!
# Words of wide integers

A wide integer is canonical when it has as many words as its width needs and its value lies below two
to the width. A canonical integer is known by width and value. Clearing the unused bits reduces the
value modulo two to the width, so that every integer that can be had is canonical.
-/
namespace ModuleIR.WideInt

/-- The form of every integer that is made by a literal, from a word or by arithmetic. -/
structure Canonical (n : WideInt) : Prop where
  positive : 0 < n.bits
  size : n.words.size = wordCount n.bits
  bound : n.toNat < 2 ^ n.bits

/-! ### Values of lists of words -/

theorem wordsToNat_cons (word : UInt64) (rest : List UInt64) :
    wordsToNat (word :: rest) = word.toNat + 2 ^ 64 * wordsToNat rest := rfl

theorem wordsToNat_lt (words : List UInt64) : wordsToNat words < 2 ^ (64 * words.length) := by
  induction words with
  | nil => decide
  | cons word rest ih =>
    have below := word.toNat_lt
    have next : 2 ^ (64 * (rest.length + 1)) = 2 ^ 64 * 2 ^ (64 * rest.length) := by
      rw [Nat.mul_succ, Nat.pow_add, Nat.mul_comm]
    rw [wordsToNat_cons, List.length_cons, next]
    omega

theorem wordsToNat_append (low high : List UInt64) :
    wordsToNat (low ++ high) = wordsToNat low + 2 ^ (64 * low.length) * wordsToNat high := by
  induction low with
  | nil => simp [wordsToNat]
  | cons word rest ih =>
    rw [List.cons_append, wordsToNat_cons, wordsToNat_cons, ih, List.length_cons, Nat.mul_succ,
      Nat.pow_add]
    ring

theorem wordsToNat_injective {ws ws' : List UInt64} (length : ws.length = ws'.length)
    (same : wordsToNat ws = wordsToNat ws') : ws = ws' := by
  induction ws generalizing ws' with
  | nil => exact (List.length_eq_zero_iff.mp length.symm).symm
  | cons word rest ih =>
    cases ws' with
    | nil => cases length
    | cons word' rest' =>
      rw [wordsToNat_cons, wordsToNat_cons] at same
      have below := word.toNat_lt
      have below' := word'.toNat_lt
      obtain rfl : word = word' := UInt64.toNat_inj.mp (by omega)
      rw [ih (Nat.succ.inj length) (by omega)]

theorem wordsToNat_eq_zero {ws : List UInt64} : wordsToNat ws = 0 ↔ ∀ word ∈ ws, word = 0 := by
  induction ws with
  | nil => simp [wordsToNat]
  | cons word rest ih =>
    have zero : word.toNat = 0 ↔ word = 0 :=
      ⟨fun h => UInt64.toNat_inj.mp h, fun h => h ▸ rfl⟩
    rw [wordsToNat_cons, List.forall_mem_cons, ← ih, ← zero]
    omega

theorem wordsToNat_replicate_zeros (count : Nat) :
    wordsToNat (List.replicate count (0 : UInt64)) = 0 :=
  wordsToNat_eq_zero.mpr fun _ mem => List.eq_of_mem_replicate mem

theorem toNat_zero (bits : Nat) : (zero bits).toNat = 0 := by
  rw [toNat, zero, Array.toList_replicate, wordsToNat_replicate_zeros]

theorem isZero_iff {n : WideInt} : n.isZero = true ↔ n.toNat = 0 := by
  rw [isZero, toNat, wordsToNat_eq_zero, Array.all_eq_true_iff_forall_mem]
  simp

/-- Width and value tell a canonical integer. -/
theorem Canonical.ext {n n' : WideInt} (h : n.Canonical) (h' : n'.Canonical)
    (bits : n.bits = n'.bits) (value : n.toNat = n'.toNat) : n = n' := by
  have length : n.words.toList.length = n'.words.toList.length := by
    rw [Array.length_toList, Array.length_toList, h.size, h'.size, bits]
  have words : n.words = n'.words := Array.toList_inj.mp (wordsToNat_injective length value)
  cases n
  cases n'
  exact congr (congrArg WideInt.mk bits) words

theorem Canonical.ext_iff {n n' : WideInt} (h : n.Canonical) (h' : n'.Canonical) :
    n = n' ↔ n.bits = n'.bits ∧ n.toNat = n'.toNat :=
  ⟨fun same => same ▸ ⟨rfl, rfl⟩, fun ⟨width, value⟩ => h.ext h' width value⟩

/-! ### Unused bits -/

theorem toNat_not_unusedMask {bits : Nat} (part : bits % 64 ≠ 0) :
    (~~~(unusedMask bits)).toNat = 2 ^ (bits % 64) - 1 := by
  have all : ∀ r < 64, r ≠ 0 →
      (~~~(UInt64.ofNat (1 <<< 64 - 1 <<< r))).toNat = 2 ^ r - 1 := by decide
  rw [unusedMask, if_neg part]
  exact all (bits % 64) (Nat.mod_lt _ (by decide)) part

theorem words_clearUnusedBits {bits : Nat} {low : Array UInt64} {last : UInt64} :
    (clearUnusedBits ⟨bits, low.push last⟩).words = low.push (last &&& ~~~(unusedMask bits)) := by
  refine Array.ext_getElem? fun i => ?_
  change ((low.push last).modify ((low.push last).size - 1) _)[i]? = _
  rw [Array.getElem?_modify, Array.size_push, Nat.add_sub_cancel, Array.getElem?_push,
    Array.getElem?_push]
  by_cases final : i = low.size
  · simp [final]
  · rw [if_neg (Ne.symm final), if_neg final, if_neg final]

theorem wordsToNat_push (low : Array UInt64) (last : UInt64) :
    wordsToNat (low.push last).toList =
      wordsToNat low.toList + 2 ^ (64 * low.size) * last.toNat := by
  rw [Array.toList_push, wordsToNat_append, Array.length_toList]
  rfl

/-- Clearing the unused bits of the last word reduces the value modulo two to the width. -/
theorem toNat_clearUnusedBits {n : WideInt} (positive : 0 < n.bits)
    (size : n.words.size = wordCount n.bits) : n.clearUnusedBits.toNat = n.toNat % 2 ^ n.bits := by
  obtain ⟨bits, words⟩ := n
  have nonempty : 0 < words.size := by
    rw [size, wordCount]
    change 0 < bits at positive
    change 0 < (bits + 63) / 64
    omega
  obtain ⟨low, last, rfl⟩ := Array.exists_push_of_size_pos nonempty
  have count : 64 * low.size + 64 = 64 * ((bits + 63) / 64) := by
    have := size.symm
    rw [Array.size_push] at this
    change (bits + 63) / 64 = _ at this
    omega
  have below := wordsToNat_lt low.toList
  rw [Array.length_toList] at below
  have value := last.toNat_lt
  rw [toNat, words_clearUnusedBits, toNat, wordsToNat_push, wordsToNat_push, UInt64.toNat_and]
  change wordsToNat low.toList + 2 ^ (64 * low.size) * _ =
    (wordsToNat low.toList + 2 ^ (64 * low.size) * last.toNat) % 2 ^ bits
  by_cases full : bits % 64 = 0
  · have whole : bits = 64 * low.size + 64 := by omega
    have mask : (~~~(unusedMask bits)).toNat = 2 ^ 64 - 1 := by
      rw [unusedMask, if_pos full]
      decide
    rw [mask, Nat.and_two_pow_sub_one_eq_mod, Nat.mod_eq_of_lt value, Nat.mod_eq_of_lt]
    rw [whole, Nat.pow_add]
    calc wordsToNat low.toList + 2 ^ (64 * low.size) * last.toNat
        < 2 ^ (64 * low.size) * (last.toNat + 1) := by rw [Nat.mul_succ]; omega
      _ ≤ 2 ^ (64 * low.size) * 2 ^ 64 := Nat.mul_le_mul_left _ value
  · have whole : bits = 64 * low.size + bits % 64 := by omega
    rw [toNat_not_unusedMask full, Nat.and_two_pow_sub_one_eq_mod]
    conv_rhs => rw [whole, Nat.pow_add, Nat.mod_mul]
    rw [Nat.add_mul_mod_self_left, Nat.mod_eq_of_lt below, Nat.add_mul_div_left _ _ (by positivity),
      Nat.div_eq_of_lt below, Nat.zero_add]

theorem canonical_clearUnusedBits {n : WideInt} (positive : 0 < n.bits)
    (size : n.words.size = wordCount n.bits) : n.clearUnusedBits.Canonical where
  positive := positive
  size := by
    rw [clearUnusedBits, Array.size_modify]
    exact size
  bound := by
    rw [toNat_clearUnusedBits positive size]
    exact Nat.mod_lt _ (Nat.two_pow_pos _)

/-! ### Negation -/

def carried (carry : Bool) (weight : Nat) : Nat := if carry then weight else 0

theorem toNat_complement (word : UInt64) (carry : Bool) :
    (~~~word + (if carry then 1 else 0)).toNat +
        carried (carry && ~~~word + (if carry then 1 else 0) == 0) (2 ^ 64) + word.toNat =
      2 ^ 64 - 1 + carried carry 1 := by
  have below := word.toNat_lt
  have complement : (~~~word).toNat = 2 ^ 64 - 1 - word.toNat := UInt64.toNat_not word
  cases carry with
  | false => simp [carried, complement]; omega
  | true =>
    have sum : (~~~word + 1).toNat = (2 ^ 64 - word.toNat) % 2 ^ 64 := by
      rw [UInt64.toNat_add, complement]
      congr 1
      change 2 ^ 64 - 1 - word.toNat + 1 = _
      omega
    have zero : (~~~word + 1 == 0) = decide (word.toNat = 0) := by
      rw [Bool.eq_iff_iff, beq_iff_eq, decide_eq_true_iff, ← UInt64.toNat_inj, sum]
      change _ = 0 ↔ _
      omega
    simp only [if_true, Bool.true_and, sum, zero, carried, decide_eq_true_eq]
    split <;> omega

/-- Complementing words from the lowest up with a carry: words and carry together stand for two to
the number of bits less the value. -/
theorem foldl_negateStep (words : List UInt64) :
    (words.foldl negateStep (#[], true)).1.size = words.length ∧
      wordsToNat (words.foldl negateStep (#[], true)).1.toList +
          carried (words.foldl negateStep (#[], true)).2 (2 ^ (64 * words.length)) +
            wordsToNat words = 2 ^ (64 * words.length) := by
  induction words using List.reverseRecOn with
  | nil => simp [wordsToNat, carried]
  | append_singleton low word ih =>
    rw [List.foldl_append, List.foldl_cons, List.foldl_nil]
    generalize low.foldl negateStep (#[], true) = done at ih ⊢
    obtain ⟨size, value⟩ := ih
    refine ⟨by simp [negateStep, size], ?_⟩
    have weigh (carry : Bool) (weight : Nat) :
        carried carry (2 ^ (64 * low.length) * weight) = 2 ^ (64 * low.length) * carried carry weight := by
      cases carry <;> simp [carried]
    have sum := toNat_complement word done.2
    have one := weigh done.2 1
    rw [Nat.mul_one] at one
    rw [one] at value
    rw [List.length_append, List.length_singleton, Nat.mul_succ, Nat.pow_add, weigh,
      wordsToNat_append]
    change wordsToNat (done.1.push (~~~word + (if done.2 then 1 else 0))).toList + _ *
      carried (done.2 && ~~~word + (if done.2 then 1 else 0) == 0) _ + (_ + _ * word.toNat) = _
    rw [wordsToNat_push, size]
    generalize 2 ^ (64 * low.length) = weight at *
    generalize carried (done.2 && ~~~word + (if done.2 then 1 else 0) == 0) (2 ^ 64) = carry at *
    generalize (~~~word + (if done.2 then 1 else 0)).toNat = digit at *
    calc wordsToNat done.1.toList + weight * digit + weight * carry +
          (wordsToNat low + weight * word.toNat)
        = wordsToNat done.1.toList + wordsToNat low + weight * (digit + carry + word.toNat) := by ring
      _ = wordsToNat done.1.toList + weight * carried done.2 1 + wordsToNat low +
            weight * (2 ^ 64 - 1) := by rw [sum]; ring
      _ = weight * 2 ^ 64 := by rw [value]; ring

theorem negate_spec {n : WideInt} (h : n.Canonical) :
    n.negate.Canonical ∧ n.negate.toNat = (2 ^ n.bits - n.toNat) % 2 ^ n.bits := by
  obtain ⟨size, value⟩ := foldl_negateStep n.words.toList
  rw [Array.length_toList, h.size] at size value
  have done : n.negate = clearUnusedBits ⟨n.bits, (n.words.toList.foldl negateStep (#[], true)).1⟩ := by
    rw [negate, Array.foldl_toList]
  rw [done]
  generalize n.words.toList.foldl negateStep (#[], true) = complement at size value
  refine ⟨canonical_clearUnusedBits (n := ⟨n.bits, complement.1⟩) h.positive size, ?_⟩
  rw [toNat_clearUnusedBits (n := ⟨n.bits, complement.1⟩) h.positive size]
  change wordsToNat complement.1.toList % 2 ^ n.bits = _
  have bound := h.bound
  change _ + _ + n.toNat = _ at value
  obtain ⟨extra, wide⟩ : ∃ extra, 64 * wordCount n.bits = n.bits + extra :=
    ⟨64 * wordCount n.bits - n.bits, by rw [wordCount]; omega⟩
  rw [wide, Nat.pow_add] at value
  generalize wordsToNat complement.1.toList = result at value ⊢
  have positive := Nat.two_pow_pos n.bits
  cases carry : complement.2 with
  | true =>
    simp only [carry, carried, if_true] at value
    rw [show result = 0 by omega, show n.toNat = 0 by omega, Nat.sub_zero, Nat.mod_self, Nat.zero_mod]
  | false =>
    simp only [carry, carried, Bool.false_eq_true, if_false, Nat.add_zero] at value
    have split : result = 2 ^ n.bits * (2 ^ extra - 1) + (2 ^ n.bits - n.toNat) := by
      have once : 2 ^ n.bits ≤ 2 ^ n.bits * 2 ^ extra := Nat.le_mul_of_pos_right _ (Nat.two_pow_pos _)
      rw [Nat.mul_sub, Nat.mul_one]
      omega
    rw [split, Nat.mul_add_mod]

/-! ### Integers that can be had -/

theorem size_foldl_mulAddStep (factor : UInt64) (words : List UInt64) (done : Array UInt64 × Nat) :
    (words.foldl (mulAddStep factor) done).1.size = done.1.size + words.length := by
  induction words generalizing done with
  | nil => rfl
  | cons word rest ih =>
    rw [List.foldl_cons, ih, mulAddStep, Array.size_push, List.length_cons]
    omega

theorem canonical_mulAdd {n : WideInt} (h : n.Canonical) (factor addend : UInt64) :
    (n.mulAdd factor addend).1.Canonical := by
  have done : (n.mulAdd factor addend).1 = clearUnusedBits
      ⟨n.bits, (n.words.toList.foldl (mulAddStep factor) (#[], addend.toNat)).1⟩ := by
    rw [mulAdd, Array.foldl_toList]
  have size := size_foldl_mulAddStep factor n.words.toList (#[], addend.toNat)
  rw [Array.length_toList, h.size] at size
  rw [done]
  exact canonical_clearUnusedBits h.positive (size.trans (Nat.zero_add _))

theorem canonical_zero {bits : Nat} (positive : 0 < bits) : (zero bits).Canonical where
  positive := positive
  size := Array.size_replicate
  bound := by
    rw [toNat_zero]
    exact Nat.two_pow_pos _

theorem canonical_accumulate {radix : Nat} {digits : List Char} {read literal : Literal}
    (h : read.value.Canonical) (run : Literal.accumulate radix read digits = .ok literal) :
    literal.value.Canonical := by
  induction digits generalizing read with
  | nil =>
    obtain rfl := Except.ok.inj run
    exact h
  | cons c rest ih =>
    rw [Literal.accumulate] at run
    split at run
    · cases run
    · exact ih (canonical_mulAdd h _ _) run

theorem positive_of_validWidth {bits : Nat} (valid : validWidth bits = true) : 0 < bits := by
  simp only [validWidth, Bool.and_eq_true, decide_eq_true_eq] at valid
  exact valid.1

theorem canonical_read {bits : Nat} {text : String} {radix : Nat} {literal : Literal}
    (accepted : Literal.read bits text radix = .ok literal) : literal.value.Canonical := by
  simp only [Literal.read] at accepted
  split at accepted
  · cases accepted
  · rename_i valid
    split at accepted
    · cases accepted
    · split at accepted
      · cases accepted
      · split at accepted
        · cases accepted
        · rename_i read accumulated
          have positive : 0 < bits := positive_of_validWidth (by simpa using valid)
          have canonical := canonical_accumulate (canonical_zero positive) accumulated
          obtain rfl := Except.ok.inj accepted
          unfold Literal.applySign
          split
          · exact (negate_spec canonical).1
          · exact canonical

theorem Built.canonical {n : WideInt} (built : n.Built) : n.Canonical := by
  cases built with
  | literal accepted => exact canonical_read accepted
  | signed valid value =>
    refine canonical_clearUnusedBits (positive_of_validWidth valid) ?_
    rw [Array.size_modify, Array.size_replicate]
  | unsigned valid value =>
    refine canonical_clearUnusedBits (positive_of_validWidth valid) ?_
    rw [Array.size_modify]
    exact Array.size_replicate

end ModuleIR.WideInt
