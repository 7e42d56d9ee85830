import ModuleIR.Proofs.WideInt.Digits
import ModuleIR.Proofs.WideInt.Products

set_option autoImplicit false

/-!
# Words and double words

The loops over the words of an integer compute in double words. Carries stay below a word and
remainders below the divisor, so that no product, sum or shift leaves a double word and no partial
quotient leaves a word: in wrapping double words the loops give what they give in natural numbers.
-/
namespace ModuleIR.WideInt

/-- Room for the product of two words. -/
abbrev DoubleWord : Type := BitVec 128

def widen (word : UInt64) : DoubleWord := word.toBitVec.setWidth 128

def narrow (wide : DoubleWord) : UInt64 := .ofBitVec (wide.setWidth 64)

/-- `mulAddStep` in wrapping double words. -/
def wrappingMulAddStep (factor : UInt64) (done : Array UInt64 × DoubleWord) (word : UInt64) :
    Array UInt64 × DoubleWord :=
  let wide := widen word * widen factor + done.2
  (done.1.push (narrow wide), wide >>> 64)

def wrappingMulAdd (n : WideInt) (factor addend : UInt64) : WideInt × Bool :=
  let (words, carry) := n.words.foldl (wrappingMulAddStep factor) (#[], widen addend)
  let wide : WideInt := ⟨n.bits, words⟩
  (wide.clearUnusedBits, carry != 0 || wide.hasUnusedBits)

def wrappingDivRemStep (divisor : UInt64) (word : UInt64) (done : Array UInt64 × DoubleWord) :
    Array UInt64 × DoubleWord :=
  let current := done.2 <<< 64 ||| widen word
  (done.1.push (narrow (current / widen divisor)), current % widen divisor)

def wrappingDivRem (n : WideInt) (divisor : UInt64) : WideInt × UInt64 :=
  let (words, rest) := n.words.foldr (wrappingDivRemStep divisor) (#[], 0)
  (⟨n.bits, words.reverse⟩, narrow rest)

theorem toNat_widen (word : UInt64) : (widen word).toNat = word.toNat := by
  rw [widen, BitVec.toNat_setWidth]
  exact Nat.mod_eq_of_lt (Nat.lt_trans word.toNat_lt (by decide))

theorem narrow_eq (wide : DoubleWord) : narrow wide = UInt64.ofNat wide.toNat := by
  apply UInt64.toNat_inj.mp
  rw [UInt64.toNat_ofNat']
  exact BitVec.toNat_setWidth 64 wide

/-! ### Products -/

theorem product_lt (word factor : UInt64) {carry : Nat} (small : carry < 2 ^ 64) :
    word.toNat * factor.toNat + carry < 2 ^ 128 := by
  have product : word.toNat * factor.toNat ≤ (2 ^ 64 - 1) * (2 ^ 64 - 1) :=
    Nat.mul_le_mul (Nat.le_pred_of_lt word.toNat_lt) (Nat.le_pred_of_lt factor.toNat_lt)
  omega

theorem carry_lt (factor : UInt64) {addend : Nat} (small : addend < 2 ^ 64) (words : List UInt64) :
    (words.foldl (mulAddStep factor) (#[], addend)).2 < 2 ^ 64 := by
  induction words using List.reverseRecOn with
  | nil => exact small
  | append_singleton low word ih =>
    rw [List.foldl_append, List.foldl_cons, List.foldl_nil]
    have bound := product_lt word factor ih
    change (word.toNat * factor.toNat + _) / 2 ^ 64 < 2 ^ 64
    omega

/-- The words are the same, and the double word stands for the number, which is below `bound`. -/
structure Agrees (bound : Nat) (done : Array UInt64 × Nat) (done' : Array UInt64 × DoubleWord) :
    Prop where
  words : done'.1 = done.1
  number : done'.2.toNat = done.2
  small : done.2 < bound

theorem Agrees.mulAddStep {done : Array UInt64 × Nat} {done' : Array UInt64 × DoubleWord}
    (h : Agrees (2 ^ 64) done done') (factor word : UInt64) :
    Agrees (2 ^ 64) (mulAddStep factor done word) (wrappingMulAddStep factor done' word) := by
  have bound := product_lt word factor h.small
  have wide : (widen word * widen factor + done'.2).toNat =
      word.toNat * factor.toNat + done.2 := by
    rw [BitVec.toNat_add, BitVec.toNat_mul, toNat_widen, toNat_widen, h.number, Nat.mod_add_mod,
      Nat.mod_eq_of_lt bound]
  refine ⟨?_, ?_, ?_⟩
  · change done'.1.push (narrow _) = done.1.push _
    rw [h.words, narrow_eq, wide]
  · change ((widen word * widen factor + done'.2) >>> 64).toNat = _ / 2 ^ 64
    rw [BitVec.toNat_ushiftRight, wide, Nat.shiftRight_eq_div_pow]
  · change (word.toNat * factor.toNat + done.2) / 2 ^ 64 < 2 ^ 64
    omega

theorem wrappingMulAdd_eq (n : WideInt) (factor addend : UInt64) :
    n.wrappingMulAdd factor addend = n.mulAdd factor addend := by
  have start : Agrees (2 ^ 64) (#[], addend.toNat) (#[], widen addend) :=
    ⟨rfl, toNat_widen addend, addend.toNat_lt⟩
  have agrees := List.foldl_rel (l := n.words.toList) (r := Agrees (2 ^ 64)) start
    fun word _ _ _ h => h.mulAddStep factor word
  have zero : (0 : DoubleWord).toNat = 0 := rfl
  rw [wrappingMulAdd, mulAdd, ← Array.foldl_toList, ← Array.foldl_toList]
  generalize n.words.toList.foldl (wrappingMulAddStep factor) _ = done' at agrees ⊢
  generalize n.words.toList.foldl (mulAddStep factor) _ = done at agrees ⊢
  have carries : (done'.2 != 0) = (done.2 != 0) := by
    rw [Bool.eq_iff_iff, bne_iff_ne, bne_iff_ne, ne_eq, ← BitVec.toNat_inj, agrees.number, zero]
  simp only [agrees.words, carries]

/-! ### Quotients -/

theorem current_lt {divisor : UInt64} {rest : Nat} (small : rest < divisor.toNat) (word : UInt64) :
    rest * 2 ^ 64 + word.toNat < 2 ^ 128 := by
  have below := word.toNat_lt
  have below' := divisor.toNat_lt
  omega

theorem Agrees.divRemStep {divisor : UInt64} {done : Array UInt64 × Nat}
    {done' : Array UInt64 × DoubleWord} (h : Agrees divisor.toNat done done') (word : UInt64) :
    Agrees divisor.toNat (divRemStep divisor word done) (wrappingDivRemStep divisor word done') := by
  have small := h.small
  have shifted : (done'.2 <<< 64).toNat = 2 ^ 64 * done.2 := by
    rw [BitVec.toNat_shiftLeft, h.number, Nat.shiftLeft_eq, Nat.mul_comm, Nat.mod_eq_of_lt]
    have below := divisor.toNat_lt
    omega
  have current : (done'.2 <<< 64 ||| widen word).toNat = done.2 * 2 ^ 64 + word.toNat := by
    rw [BitVec.toNat_or, shifted, toNat_widen, ← Nat.two_pow_add_eq_or_of_lt word.toNat_lt,
      Nat.mul_comm]
  refine ⟨?_, ?_, ?_⟩
  · change done'.1.push (narrow _) = done.1.push (UInt64.ofNat ((done.2 * 2 ^ 64 + _) / _))
    rw [h.words, narrow_eq, BitVec.toNat_udiv, current, toNat_widen]
  · change (_ % _ : DoubleWord).toNat = (done.2 * 2 ^ 64 + _) % _
    rw [BitVec.toNat_umod, current, toNat_widen]
  · exact Nat.mod_lt _ (Nat.zero_lt_of_lt small)

theorem wrappingDivRem_eq (n : WideInt) {divisor : UInt64} (positive : 0 < divisor.toNat) :
    n.wrappingDivRem divisor = n.divRem divisor := by
  have start : Agrees divisor.toNat (#[], 0) (#[], 0) := ⟨rfl, rfl, positive⟩
  have agrees := List.foldr_rel (l := n.words.toList) (r := Agrees divisor.toNat) start
    fun word _ _ _ h => h.divRemStep word
  rw [wrappingDivRem, divRem, ← Array.foldr_toList, ← Array.foldr_toList]
  generalize n.words.toList.foldr (wrappingDivRemStep divisor) _ = done' at agrees ⊢
  generalize n.words.toList.foldr (WideInt.divRemStep divisor) _ = done at agrees ⊢
  simp only [agrees.words, narrow_eq, agrees.number]

/-! ### Exactness -/

/-- Arithmetic on the words of a canonical integer is exact in its width, and the loops never leave a
double word. Multiplying and adding a word report lost bits exactly when the result is beyond the
width; quotient and remainder by a word are those of the value; negation is that modulo two to the
width. At each word the carry is a word and the sum a double word; the remainder so far is below the
divisor, it can be shifted by a word without loss, and the partial quotient is a word. -/
theorem word_arithmetic_exact {n : WideInt} (h : n.Canonical) :
    (∀ factor addend : UInt64,
      (n.mulAdd factor addend).1.bits = n.bits ∧
      (n.mulAdd factor addend).1.toNat = (n.toNat * factor.toNat + addend.toNat) % 2 ^ n.bits ∧
      ((n.mulAdd factor addend).2 = true ↔
        2 ^ n.bits ≤ n.toNat * factor.toNat + addend.toNat) ∧
      n.wrappingMulAdd factor addend = n.mulAdd factor addend ∧
      ∀ (low : List UInt64) (word : UInt64) high, n.words.toList = low ++ word :: high →
        let carry := (low.foldl (mulAddStep factor) (#[], addend.toNat)).2
        carry < 2 ^ 64 ∧ word.toNat * factor.toNat + carry < 2 ^ 128) ∧
    (∀ divisor : UInt64, 0 < divisor →
      (n.divRem divisor).1.bits = n.bits ∧
      (n.divRem divisor).1.toNat = n.toNat / divisor.toNat ∧
      (n.divRem divisor).2.toNat = n.toNat % divisor.toNat ∧
      n.wrappingDivRem divisor = n.divRem divisor ∧
      ∀ (low : List UInt64) (word : UInt64) high, n.words.toList = low ++ word :: high →
        let rest := (high.foldr (divRemStep divisor) (#[], 0)).2
        rest < divisor.toNat ∧ rest * 2 ^ 64 + word.toNat < 2 ^ 128 ∧
          (rest * 2 ^ 64 + word.toNat) / divisor.toNat < 2 ^ 64) ∧
    n.negate.bits = n.bits ∧ n.negate.toNat = (2 ^ n.bits - n.toNat) % 2 ^ n.bits := by
  refine ⟨fun factor addend => ?_, fun divisor positive => ?_, rfl, (negate_spec h).2⟩
  · obtain ⟨value, lost⟩ := mulAdd_spec h factor addend
    refine ⟨rfl, value, lost, wrappingMulAdd_eq n factor addend, fun low word _ _ => ?_⟩
    have small := carry_lt factor addend.toNat_lt low
    exact ⟨small, product_lt word factor small⟩
  · have positive : 0 < divisor.toNat := positive
    obtain ⟨bits, -, quotient, remainder⟩ := divRem_spec n positive
    refine ⟨bits, quotient, remainder, wrappingDivRem_eq n positive, fun _ word high _ => ?_⟩
    have small : (high.foldr (divRemStep divisor) (#[], 0)).2 < divisor.toNat := by
      rw [(foldr_divRemStep positive high).2.2]
      exact Nat.mod_lt _ positive
    exact ⟨small, current_lt small word, partialQuotient_lt small word⟩

/-- All bits of 65 are set, and multiplied by the largest word and added to it. -/
theorem largestWords_exact : (⟨65, #[~~~0, 1]⟩ : WideInt).Canonical ∧
    (mulAdd ⟨65, #[~~~0, 1]⟩ (~~~0) (~~~0)).1.toNat = 0 ∧
    (mulAdd ⟨65, #[~~~0, 1]⟩ (~~~0) (~~~0)).2 = true ∧
    (divRem ⟨65, #[~~~0, 1]⟩ (~~~0)).1.toNat = 2 ∧
    (divRem ⟨65, #[~~~0, 1]⟩ (~~~0)).2.toNat = 1 ∧
    (negate ⟨65, #[~~~0, 1]⟩).toNat = 1 := by
  have canonical : (⟨65, #[~~~0, 1]⟩ : WideInt).Canonical := ⟨by decide, rfl, by decide⟩
  have value : (⟨65, #[~~~0, 1]⟩ : WideInt).toNat = 2 ^ 65 - 1 := by decide
  obtain ⟨products, quotients, -, negated⟩ := word_arithmetic_exact canonical
  obtain ⟨-, product, lost, -⟩ := products (~~~0) (~~~0)
  obtain ⟨-, quotient, remainder, -⟩ := quotients (~~~0) (by decide)
  rw [value] at product lost quotient remainder negated
  exact ⟨canonical, product, lost.mpr (by decide), quotient, remainder, negated⟩

end ModuleIR.WideInt
