import Mathlib.Data.Nat.Digits.Lemmas
import ModuleIR.Proofs.Text.Bytes
import ModuleIR.Proofs.WideInt.Words

set_option autoImplicit false

/-!
# Digits of wide integers

Division of words by a divisor is exact, so that the digits of a canonical integer are those of its
value. Two integers of one width with the same decimal numeral are the same.
-/
namespace ModuleIR.WideInt

/-! ### Division -/

/-- What is divided at one place is less than the divisor shifted by a word. -/
theorem partialQuotient_lt {divisor : UInt64} {rest : Nat} (small : rest < divisor.toNat)
    (word : UInt64) : (rest * 2 ^ 64 + word.toNat) / divisor.toNat < 2 ^ 64 := by
  have below := word.toNat_lt
  rw [Nat.div_lt_iff_lt_mul (Nat.zero_lt_of_lt small)]
  calc rest * 2 ^ 64 + word.toNat < (rest + 1) * 2 ^ 64 := by rw [Nat.succ_mul]; omega
    _ ≤ divisor.toNat * 2 ^ 64 := Nat.mul_le_mul_right _ small
    _ = 2 ^ 64 * divisor.toNat := Nat.mul_comm _ _

/-- Dividing words from the highest down: quotient and remainder are those of the value. -/
theorem foldr_divRemStep {divisor : UInt64} (positive : 0 < divisor.toNat) (words : List UInt64) :
    (words.foldr (divRemStep divisor) (#[], 0)).1.size = words.length ∧
      wordsToNat (words.foldr (divRemStep divisor) (#[], 0)).1.toList.reverse =
        wordsToNat words / divisor.toNat ∧
      (words.foldr (divRemStep divisor) (#[], 0)).2 = wordsToNat words % divisor.toNat := by
  induction words with
  | nil => simp [wordsToNat]
  | cons word rest ih =>
    rw [List.foldr_cons]
    generalize rest.foldr (divRemStep divisor) (#[], 0) = done at ih ⊢
    obtain ⟨size, quotient, remainder⟩ := ih
    have small : done.2 < divisor.toNat := remainder ▸ Nat.mod_lt _ positive
    have divided := Nat.div_add_mod (wordsToNat rest) divisor.toNat
    rw [← remainder] at divided
    have fits := partialQuotient_lt small word
    have whole : wordsToNat (word :: rest) = done.2 * 2 ^ 64 + word.toNat +
        divisor.toNat * (2 ^ 64 * (wordsToNat rest / divisor.toNat)) := by
      rw [wordsToNat_cons]
      conv_lhs => rw [← divided]
      ring
    refine ⟨?_, ?_, ?_⟩
    · change (Array.push _ _).size = _
      rw [Array.size_push, size, List.length_cons]
    · change wordsToNat (Array.push _ (UInt64.ofNat ((done.2 * 2 ^ 64 + word.toNat) / _))).toList.reverse
        = _
      rw [Array.toList_push, List.reverse_append, List.reverse_singleton, List.singleton_append,
        wordsToNat_cons, UInt64.toNat_ofNat_of_lt' fits, quotient, whole,
        Nat.add_mul_div_left _ _ positive]
    · change (done.2 * 2 ^ 64 + word.toNat) % _ = _
      rw [whole, Nat.add_mul_mod_self_left]

theorem divRem_spec (n : WideInt) {divisor : UInt64} (positive : 0 < divisor.toNat) :
    (n.divRem divisor).1.bits = n.bits ∧ (n.divRem divisor).1.words.size = n.words.size ∧
      (n.divRem divisor).1.toNat = n.toNat / divisor.toNat ∧
      (n.divRem divisor).2.toNat = n.toNat % divisor.toNat := by
  obtain ⟨size, quotient, remainder⟩ := foldr_divRemStep positive n.words.toList
  have done : n.divRem divisor =
      (⟨n.bits, (n.words.toList.foldr (divRemStep divisor) (#[], 0)).1.reverse⟩,
        UInt64.ofNat (n.words.toList.foldr (divRemStep divisor) (#[], 0)).2) := by
    rw [divRem, Array.foldr_toList]
  rw [done]
  refine ⟨rfl, Array.size_reverse.trans (size.trans Array.length_toList), ?_, ?_⟩
  · rw [toNat, Array.toList_reverse, quotient]
    rfl
  · have small := Nat.mod_lt (wordsToNat n.words.toList) positive
    rw [← remainder] at small
    rw [UInt64.toNat_ofNat_of_lt' (Nat.lt_trans small divisor.toNat_lt), remainder]
    rfl

theorem canonical_divRem {n : WideInt} (h : n.Canonical) {divisor : UInt64} (positive : 0 < divisor) :
    (n.divRem divisor).1.Canonical := by
  obtain ⟨width, size, quotient, -⟩ := divRem_spec n (show 0 < divisor.toNat from positive)
  refine ⟨width ▸ h.positive, ?_, ?_⟩
  · rw [size, width, h.size]
  · rw [quotient, width]
    exact Nat.lt_of_le_of_lt (Nat.div_le_self _ _) h.bound

/-! ### Digits -/

theorem pushDigits_eq {radix : UInt64} (two : 2 ≤ radix.toNat) {steps : Nat} {n : WideInt}
    (bound : n.toNat < 2 ^ steps) (done : List Char) :
    pushDigits radix steps n done =
      (Nat.digits radix.toNat n.toNat).reverse.map digitChar ++ done := by
  induction steps generalizing n done with
  | zero =>
    have zero : n.toNat = 0 := by omega
    simp [pushDigits, zero]
  | succ steps ih =>
    rw [pushDigits]
    by_cases zero : n.isZero = true
    · simp [zero, isZero_iff.mp zero]
    · have positive : 0 < n.toNat := Nat.pos_of_ne_zero (mt isZero_iff.mpr zero)
      obtain ⟨_, _, quotient, remainder⟩ := divRem_spec n (by omega : 0 < radix.toNat)
      have half : (n.divRem radix).1.toNat < 2 ^ steps := by
        rw [quotient, Nat.div_lt_iff_lt_mul (by omega)]
        calc n.toNat < 2 ^ steps * 2 := by rwa [← Nat.pow_succ]
          _ ≤ 2 ^ steps * radix.toNat := Nat.mul_le_mul_left _ two
      rw [if_neg zero]
      change pushDigits radix steps (n.divRem radix).1 (digitChar (n.divRem radix).2.toNat :: done) = _
      rw [ih half, Nat.digits_def' two positive, quotient, remainder]
      simp

theorem mem_pushDigits {radix : UInt64} (positive : 0 < radix.toNat) {steps : Nat} {n : WideInt}
    {done : List Char} {c : Char} (mem : c ∈ pushDigits radix steps n done) :
    c ∈ done ∨ ∃ d < radix.toNat, c = digitChar d := by
  induction steps generalizing n done with
  | zero => exact .inl mem
  | succ steps ih =>
    rw [pushDigits] at mem
    split at mem
    · exact .inl mem
    · rcases ih mem with before | here
      · rcases List.mem_cons.mp before with rfl | before
        · have small := Nat.mod_lt n.toNat positive
          rw [← (divRem_spec n positive).2.2.2] at small
          exact .inr ⟨_, small, rfl⟩
        · exact .inl before
      · exact .inr here

theorem mem_digits {n : WideInt} {c : Char} (mem : c ∈ n.digits 10) : ∃ d < 10, c = digitChar d := by
  unfold digits at mem
  split at mem
  · exact ⟨0, by decide, List.mem_singleton.mp mem⟩
  · exact (mem_pushDigits (by decide) mem).resolve_left List.not_mem_nil

theorem isDigit_of_mem_digits {n : WideInt} {c : Char} (mem : c ∈ n.digits 10) :
    c.isDigit = true := by
  have all : ∀ d < 10, (digitChar d).isDigit = true := by decide
  obtain ⟨d, small, rfl⟩ := mem_digits mem
  exact all d small

/-- Digit values of an integer, the lowest first; zero has one digit. -/
def digitValues (radix : Nat) (n : WideInt) : List Nat :=
  if n.toNat = 0 then [0] else Nat.digits radix n.toNat

section Canonical

variable {n n' : WideInt} {radix : Nat} (valid : validNumeralRadix radix = true)
include valid

theorem digits_eq (h : n.Canonical) :
    n.digits radix = (n.digitValues radix).reverse.map digitChar := by
  simp only [validNumeralRadix, Bool.and_eq_true, decide_eq_true_eq] at valid
  have same : (UInt64.ofNat radix).toNat = radix := UInt64.toNat_ofNat_of_lt' (by
    change radix < 2 ^ 64
    omega)
  unfold digits digitValues
  by_cases zero : n.isZero = true
  · rw [if_pos zero, if_pos (isZero_iff.mp zero)]
    rfl
  · rw [if_neg zero, if_neg (mt isZero_iff.mpr zero), pushDigits_eq (by omega) h.bound, same,
      List.append_nil]

theorem digitValues_lt (n : WideInt) : ∀ d ∈ n.digitValues radix, d < radix := by
  simp only [validNumeralRadix, Bool.and_eq_true, decide_eq_true_eq] at valid
  intro d mem
  unfold digitValues at mem
  split at mem
  · rw [List.mem_singleton.mp mem]
    omega
  · exact Nat.digits_lt_base (by omega) mem

omit valid in
theorem ofDigits_digitValues (n : WideInt) : Nat.ofDigits radix (n.digitValues radix) = n.toNat := by
  unfold digitValues
  split
  · rename_i zero
    simp [zero]
  · exact Nat.ofDigits_digits radix n.toNat

theorem digits_ne_nil (h : n.Canonical) : n.digits radix ≠ [] := by
  rw [digits_eq valid h, ne_eq, List.map_eq_nil_iff, List.reverse_eq_nil_iff]
  unfold digitValues
  split
  · exact List.cons_ne_nil _ _
  · rename_i positive
    exact Nat.digits_ne_nil_iff_ne_zero.mpr positive

theorem map_digitValue?_digits (h : n.Canonical) :
    (n.digits radix).map (Literal.digitValue? 36) = (n.digitValues radix).reverse.map some := by
  have read : ∀ d < 36, Literal.digitValue? 36 (digitChar d) = some d := by decide
  rw [digits_eq valid h, List.map_map]
  refine List.map_congr_left fun d mem => read d ?_
  have small := digitValues_lt valid n d (List.mem_reverse.mp mem)
  simp only [validNumeralRadix, Bool.and_eq_true, decide_eq_true_eq] at valid
  omega

theorem digits_injective (h : n.Canonical) (h' : n'.Canonical)
    (same : n.digits radix = n'.digits radix) : n.toNat = n'.toNat := by
  have values : (n.digitValues radix).reverse.map some = (n'.digitValues radix).reverse.map some := by
    rw [← map_digitValue?_digits valid h, same, map_digitValue?_digits valid h']
  have values' : n.digitValues radix = n'.digitValues radix :=
    List.reverse_injective (List.map_injective_iff.mpr (Option.some_injective _) values)
  calc n.toNat = Nat.ofDigits radix (n.digitValues radix) := (ofDigits_digitValues n).symm
    _ = Nat.ofDigits radix (n'.digitValues radix) := by rw [values']
    _ = n'.toNat := ofDigits_digitValues n'

end Canonical

/-! ### Decimal numerals -/

theorem toList_decimal (n : WideInt) : n.decimal.toList =
    if n.isNegative then '-' :: n.negate.digits 10 else n.digits 10 := by
  unfold decimal numeral
  cases n.isNegative <;> simp

theorem minus_not_digits {n : WideInt} {cs : List Char} : n.digits 10 ≠ '-' :: cs := by
  intro same
  have digit := isDigit_of_mem_digits (n := n) (c := '-') (same ▸ List.mem_cons_self)
  cases digit

theorem mem_decimal {n : WideInt} {c : Char} (mem : c ∈ n.decimal.toList) :
    c = '-' ∨ c.isDigit = true := by
  rw [toList_decimal] at mem
  split at mem
  · exact (List.mem_cons.mp mem).imp id isDigit_of_mem_digits
  · exact .inr (isDigit_of_mem_digits mem)

theorem first_of_decimal {n : WideInt} (h : n.Canonical) :
    ∃ c rest, n.decimal.toList = c :: rest ∧ (c = '-' ∨ c.isDigit = true) := by
  cases content : n.decimal.toList with
  | nil =>
    rw [toList_decimal] at content
    split at content
    · cases content
    · exact absurd content (digits_ne_nil rfl h)
  | cons c rest => exact ⟨c, rest, rfl, mem_decimal (content ▸ List.mem_cons_self)⟩

theorem printable_decimal (n : WideInt) : Text.Printable n.decimal := by
  intro c mem
  rcases mem_decimal mem with rfl | digit
  · decide
  · exact Text.isPrintable_of_isDigit digit

/-- In one width the numeral tells the integer. -/
theorem decimal_injective {n n' : WideInt} (h : n.Canonical) (h' : n'.Canonical)
    (bits : n.bits = n'.bits) (same : n.decimal = n'.decimal) : n = n' := by
  have lists := congrArg String.toList same
  rw [toList_decimal, toList_decimal] at lists
  refine h.ext h' bits ?_
  have valid : validNumeralRadix 10 = true := rfl
  cases sign : n.isNegative <;> cases sign' : n'.isNegative <;>
    simp only [sign, sign', if_true, if_false, Bool.false_eq_true] at lists
  · exact digits_injective valid h h' lists
  · exact absurd lists minus_not_digits
  · exact absurd lists.symm minus_not_digits
  · obtain ⟨canonical, value⟩ := negate_spec h
    obtain ⟨canonical', value'⟩ := negate_spec h'
    have negated := digits_injective valid canonical canonical' (List.cons.inj lists).2
    have bound := h.bound
    have bound' := h'.bound
    rw [value, value', bits] at negated
    rw [bits] at bound
    by_cases zero : n.toNat = 0 <;> by_cases zero' : n'.toNat = 0
    · omega
    · rw [zero, Nat.sub_zero, Nat.mod_self, Nat.mod_eq_of_lt (by omega)] at negated
      omega
    · rw [zero', Nat.sub_zero, Nat.mod_self, Nat.mod_eq_of_lt (by omega)] at negated
      omega
    · rw [Nat.mod_eq_of_lt (by omega), Nat.mod_eq_of_lt (by omega)] at negated
      omega

end ModuleIR.WideInt
