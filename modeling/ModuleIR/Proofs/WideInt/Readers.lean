import ModuleIR.Proofs.WideInt.Conversions
import ModuleIR.Proofs.WideInt.Numerals

set_option autoImplicit false

/-!
# Words into wide integers and out of them

An integer made from a word is the one that the decimal text of the word is read as. Reading it back as
a word succeeds exactly when the value is in the range of the word. As many words of one value are the
same, so that an integer stands for a word exactly when its words are that word under the continuation
of its sign.
-/
namespace ModuleIR

namespace Literal

/-! ### Decimal texts -/

def decimals (n : Nat) : List Nat := (Nat.toDigits 10 n).map fun c => c.toNat - '0'.toNat

theorem digitValue_of_isDigit {c : Char} (digit : c.isDigit = true) :
    DigitValue c (c.toNat - '0'.toNat) ∧ c.toNat - '0'.toNat < 10 := by
  have range : 48 ≤ c.toNat ∧ c.toNat ≤ 57 := by
    rw [Char.isDigit, Bool.and_eq_true, decide_eq_true_iff, decide_eq_true_iff] at digit
    exact digit
  change DigitValue c (c.toNat - 48) ∧ c.toNat - 48 < 10
  have small : c.toNat - 48 < 10 := by omega
  exact ⟨.decimal small (by change _ = 48 + _; omega), small⟩

theorem digitRow_decimals (n : Nat) : DigitRow 10 (Nat.toDigits 10 n) (decimals n) := by
  refine List.forall₂_map_right_iff.mpr (List.forall₂_same.mpr fun c mem => ?_)
  exact digitValue_of_isDigit (Nat.isDigit_of_mem_toDigits (by decide) (by decide) mem)

theorem decimals_ne_nil (n : Nat) : decimals n ≠ [] :=
  mt List.map_eq_nil_iff.mp Nat.toDigits_ne_nil

theorem magnitude_decimals (n : Nat) : magnitude 10 (decimals n) = n := by
  rw [magnitude_eq_foldl, decimals, List.foldl_map]
  simp only [Nat.mul_comm _ 10]
  exact Nat.ofDigitChars_ten_toDigits

theorem spells_toString (i : Int) : ∃ negative digits,
    Spells 10 (toString i) negative digits ∧ signed negative (magnitude 10 digits) = i := by
  rw [Int.toString_eq_repr, Int.repr_eq_if]
  by_cases positive : 0 ≤ i
  · refine ⟨false, decimals i.toNat, ⟨[], Nat.toDigits 10 i.toNat, ?_, .none,
      digitRow_decimals _, decimals_ne_nil _⟩, ?_⟩
    · rw [if_pos positive, Nat.toList_repr, List.nil_append]
    · rw [magnitude_decimals]
      exact Int.toNat_of_nonneg positive
  · refine ⟨true, decimals (-i).toNat, ⟨['-'], Nat.toDigits 10 (-i).toNat, ?_, .minus,
      digitRow_decimals _, decimals_ne_nil _⟩, ?_⟩
    · rw [if_neg positive, String.toList_append, Nat.toList_repr]
      rfl
    · rw [magnitude_decimals]
      change -((-i).toNat : Int) = i
      omega

/-- A canonical integer that is congruent to a number is what the decimal text of the number is read
as. -/
theorem literal_of_congruent {bits : Nat} (valid : 1 ≤ bits ∧ bits ≤ 2 ^ 24 - 1) {n : WideInt}
    (canonical : n.Canonical) (width : n.bits = bits) {i : Int}
    (congruent : (n.toNat : Int) = i % 2 ^ bits) (ctx : Context) :
    (Build.literal bits (toString i) 10 ctx).result = .ok (.ok n, ctx) := by
  obtain ⟨negative, digits, spelled, value⟩ := spells_toString i
  obtain ⟨literal, accepted, canonical', width', number, -⟩ :=
    read_of_spells valid (by decide) spelled
  rw [value, ← congruent] at number
  obtain rfl : literal.value = n :=
    canonical'.ext canonical (width'.trans width.symm) (Int.ofNat_inj.mp number)
  rw [build_of_read accepted]

end Literal

namespace WideInt

theorem toNat_ofUInt64 {bits : Nat} (positive : 0 < bits) (value : UInt64) :
    (ofUInt64 bits value).toNat = value.toNat % 2 ^ bits := by
  obtain ⟨count, words⟩ : ∃ count, wordCount bits = count + 1 :=
    ⟨wordCount bits - 1, by unfold wordCount; omega⟩
  have size : ((zero bits).words.modify 0 fun _ => value).size = wordCount bits := by
    rw [Array.size_modify]
    exact Array.size_replicate
  have list : ((zero bits).words.modify 0 fun _ => value).toList =
      value :: List.replicate count 0 := by
    rw [Array.toList_modify, zero, Array.toList_replicate, words, List.replicate_succ]
    rfl
  have cleared := toNat_clearUnusedBits
    (n := ⟨bits, (zero bits).words.modify 0 fun _ => value⟩) positive size
  change (ofUInt64 bits value).toNat = wordsToNat (Array.toList _) % 2 ^ bits at cleared
  rw [cleared, list, wordsToNat_cons, wordsToNat_replicate_zeros, Nat.mul_zero, Nat.add_zero]

/-! ### The words above the lowest -/

theorem toList_words {n : WideInt} (nonempty : 0 < n.words.size) :
    n.words.toList = n.words.getD 0 0 :: n.words.toList.drop 1 := by
  obtain ⟨bits, ⟨words⟩⟩ := n
  cases words with
  | nil => cases nonempty
  | cons word rest => rfl

theorem upperWordsAre_iff {n : WideInt} (nonempty : 0 < n.words.size) (fill : UInt64) :
    n.upperWordsAre fill = true ↔
      n.words.toList = n.words.getD 0 0 :: List.replicate (n.words.size - 1) fill := by
  have length : (n.words.toList.drop 1).length = n.words.size - 1 := by
    rw [List.length_drop, Array.length_toList]
  rw [upperWordsAre, List.all_eq_true]
  constructor
  · intro upper
    rw [← List.eq_replicate_iff.mpr ⟨length, fun word mem => beq_iff_eq.mp (upper word mem)⟩]
    exact toList_words nonempty
  · intro words word mem
    rw [words] at mem
    exact beq_iff_eq.mpr (List.eq_of_mem_replicate mem)

theorem Canonical.nonempty {n : WideInt} (h : n.Canonical) : 0 < n.words.size := by
  have positive := h.positive
  rw [h.size, wordCount]
  omega

theorem toUInt64?_eq_some {n : WideInt} (h : n.Canonical) {word : UInt64} :
    n.toUInt64? = some word ↔ n.toNat = word.toNat := by
  have upper := upperWordsAre_iff h.nonempty 0
  have padded (word : UInt64) :
      wordsToNat (word :: List.replicate (n.words.size - 1) 0) = word.toNat := by
    rw [wordsToNat_cons, wordsToNat_replicate_zeros, Nat.mul_zero, Nat.add_zero]
  rw [toUInt64?]
  constructor
  · intro found
    split at found
    · rename_i zeros
      obtain rfl := Option.some.inj found
      rw [toNat, upper.mp zeros, padded]
    · cases found
  · intro value
    have nonempty := h.nonempty
    have words : n.words.toList = word :: List.replicate (n.words.size - 1) 0 := by
      refine wordsToNat_injective ?_ (value.trans (padded word).symm)
      rw [Array.length_toList, List.length_cons, List.length_replicate]
      omega
    have low : n.words.getD 0 0 = word :=
      (List.cons.inj ((toList_words nonempty).symm.trans words)).1
    rw [if_pos (upper.mpr (by rw [low]; exact words)), low]

/-! ### The signed value in one word -/

/-- Shifting up to the sign bit of the word and back continues the sign. -/
theorem toInt_shifted {bits : Nat} (positive : 0 < bits) (inside : bits ≤ 64) {word : UInt64}
    (small : word.toNat < 2 ^ bits) :
    ((word <<< UInt64.ofNat (64 - bits)).toInt64 >>> Int64.ofNat (64 - bits)).toInt =
      if word.toNat < 2 ^ (bits - 1) then (word.toNat : Int) else word.toNat - 2 ^ bits := by
  generalize shifts : 64 - bits = shift
  have below : shift < 64 := by omega
  have whole : 2 ^ 64 = 2 ^ bits * 2 ^ shift := by
    rw [← Nat.pow_add]
    congr 1
    omega
  have half : 2 ^ bits = 2 * 2 ^ (bits - 1) := by
    rw [← Nat.pow_succ', Nat.succ_eq_add_one, Nat.sub_add_cancel positive]
  have weight := Nat.two_pow_pos shift
  have up : (word <<< UInt64.ofNat shift).toNat = word.toNat * 2 ^ shift := by
    rw [UInt64.toNat_shiftLeft, UInt64.toNat_ofNat_of_lt' (by change shift < 2 ^ 64; omega),
      Nat.mod_eq_of_lt below, Nat.shiftLeft_eq, Nat.mod_eq_of_lt]
    exact whole ▸ Nat.mul_lt_mul_of_pos_right small weight
  have amount : ∀ shift < 64, ((Int64.ofNat shift).toBitVec.smod 64).toNat = shift := by decide
  have down : ((word <<< UInt64.ofNat shift).toInt64 >>> Int64.ofNat shift).toInt =
      (word <<< UInt64.ofNat shift).toInt64.toInt / (2 ^ shift : Nat) := by
    rw [← Int64.toInt_toBitVec, Int64.toBitVec_shiftRight, BitVec.sshiftRight', amount shift below,
      BitVec.toInt_sshiftRight, Int.shiftRight_eq_div_pow]
    rfl
  have signed : (word <<< UInt64.ofNat shift).toInt64.toInt =
      (if word.toNat < 2 ^ (bits - 1) then (word.toNat : Int) else word.toNat - 2 ^ bits) *
        (2 ^ shift : Nat) := by
    have reading : (word <<< UInt64.ofNat shift).toInt64.toInt =
        if 2 * (word <<< UInt64.ofNat shift).toNat < 2 ^ 64
        then ((word <<< UInt64.ofNat shift).toNat : Int)
        else (word <<< UInt64.ofNat shift).toNat - (2 ^ 64 : Nat) :=
      BitVec.toInt_eq_toNat_cond (word <<< UInt64.ofNat shift).toBitVec
    have sign : 2 * (word.toNat * 2 ^ shift) < 2 ^ bits * 2 ^ shift ↔
        word.toNat < 2 ^ (bits - 1) := by
      rw [half, Nat.mul_assoc, Nat.mul_lt_mul_left (by decide), Nat.mul_lt_mul_right weight]
    rw [reading, up, whole]
    simp only [sign]
    split
    · push_cast
      rfl
    · push_cast
      ring
  rw [down, signed, Int.mul_ediv_cancel _ (by exact_mod_cast weight.ne')]

theorem unusedMask_or {bits : Nat} {last : UInt64} (part : bits % 64 ≠ 0)
    (small : last.toNat < 2 ^ (bits % 64)) :
    (last ||| unusedMask bits).toNat + 2 ^ (bits % 64) = last.toNat + 2 ^ 64 := by
  have below : bits % 64 < 64 := Nat.mod_lt _ (by decide)
  have weight := Nat.two_pow_pos (bits % 64)
  have whole : 2 ^ 64 = 2 ^ (bits % 64) * 2 ^ (64 - bits % 64) := by
    rw [← Nat.pow_add]
    congr 1
    omega
  have mask : (unusedMask bits).toNat = 2 ^ (bits % 64) * (2 ^ (64 - bits % 64) - 1) := by
    have complement := toNat_not_unusedMask part
    rw [UInt64.toNat_not] at complement
    have value := (unusedMask bits).toNat_lt
    change 2 ^ 64 - 1 - _ = _ at complement
    rw [Nat.mul_sub, ← whole]
    omega
  rw [UInt64.toNat_or, mask, Nat.or_comm, ← Nat.two_pow_add_eq_or_of_lt small, Nat.mul_sub, ← whole]
  have room : 2 ^ (bits % 64) ≤ 2 ^ 64 := Nat.pow_le_pow_right (by decide) below.le
  omega

theorem words_fillUnusedBits {bits : Nat} {low : Array UInt64} {last : UInt64} :
    (fillUnusedBits ⟨bits, low.push last⟩).words = low.push (last ||| unusedMask bits) := by
  refine Array.ext_getElem? fun i => ?_
  change ((low.push last).modify ((low.push last).size - 1) _)[i]? = _
  rw [Array.getElem?_modify, Array.size_push, Nat.add_sub_cancel, Array.getElem?_push,
    Array.getElem?_push]
  by_cases final : i = low.size
  · simp [final]
  · rw [if_neg (Ne.symm final), if_neg final, if_neg final]

theorem toNat_fillUnusedBits {n : WideInt} (h : n.Canonical) :
    n.fillUnusedBits.toNat + 2 ^ n.bits = n.toNat + 2 ^ (64 * n.words.size) := by
  have size := h.size
  have bound := h.bound
  obtain ⟨bits, words⟩ := n
  obtain ⟨low, last, rfl⟩ := Array.exists_push_of_size_pos h.nonempty
  change (low.push last).size = (bits + 63) / 64 at size
  change wordsToNat (low.push last).toList < 2 ^ bits at bound
  change wordsToNat (fillUnusedBits ⟨bits, low.push last⟩).words.toList + 2 ^ bits =
    wordsToNat (low.push last).toList + 2 ^ (64 * (low.push last).size)
  rw [wordsToNat_push] at bound
  rw [words_fillUnusedBits, wordsToNat_push, wordsToNat_push, Array.size_push]
  rw [Array.size_push] at size
  by_cases full : bits % 64 = 0
  · have whole : bits = 64 * (low.size + 1) := by omega
    rw [unusedMask, if_pos full, UInt64.or_zero, whole]
  · have whole : 2 ^ bits = 2 ^ (64 * low.size) * 2 ^ (bits % 64) := by
      rw [← Nat.pow_add]
      congr 1
      omega
    have small : last.toNat < 2 ^ (bits % 64) := by
      rw [whole] at bound
      exact Nat.lt_of_mul_lt_mul_left (Nat.lt_of_add_left_lt bound)
    have filled := unusedMask_or full small
    calc wordsToNat low.toList + 2 ^ (64 * low.size) * (last ||| unusedMask bits).toNat + 2 ^ bits
        = wordsToNat low.toList +
            2 ^ (64 * low.size) * ((last ||| unusedMask bits).toNat + 2 ^ (bits % 64)) := by
          rw [whole]
          ring
      _ = wordsToNat low.toList + 2 ^ (64 * low.size) * last.toNat + 2 ^ (64 * (low.size + 1)) := by
          rw [filled]
          ring

def signContinued (n : WideInt) : WideInt := if n.isNegative then n.fillUnusedBits else n

theorem size_signContinued (n : WideInt) : n.signContinued.words.size = n.words.size := by
  rw [signContinued]
  split
  · exact Array.size_modify
  · rfl

/-- With the sign continued, all words together stand for the signed value modulo all words. -/
theorem toNat_signContinued {n : WideInt} (h : n.Canonical) :
    (n.signContinued.toNat : Int) =
      n.toInt + if n.isNegative then 2 ^ (64 * n.words.size) else 0 := by
  rw [toInt_eq h, signContinued]
  cases n.isNegative with
  | false => exact (Int.add_zero _).symm
  | true =>
    have filled : (n.fillUnusedBits.toNat : Int) + 2 ^ n.bits =
        n.toNat + 2 ^ (64 * n.words.size) := by exact_mod_cast toNat_fillUnusedBits h
    rw [if_pos rfl, if_pos rfl, if_pos rfl]
    omega

theorem toInt_neg_iff {n : WideInt} (h : n.Canonical) : n.toInt < 0 ↔ n.isNegative = true := by
  have bound : (n.toNat : Int) < 2 ^ n.bits := by exact_mod_cast h.bound
  rw [toInt_eq h]
  split
  · rename_i negative
    exact iff_of_true (by omega) negative
  · rename_i positive
    exact iff_of_false (by omega) positive

/-- A signed word is the value exactly when the words are the word under the continuation of its sign,
which is the sign of the integer. -/
theorem toInt_eq_iff {n : WideInt} (h : n.Canonical) {word : Int64} :
    n.toInt = word.toInt ↔ (decide (word < 0) = n.isNegative ∧ n.signContinued.words.toList =
      word.toUInt64 :: List.replicate (n.words.size - 1) (if n.isNegative then ~~~0 else 0)) := by
  have nonempty := h.nonempty
  have sign := toInt_neg_iff h
  have word_sign : word < 0 ↔ word.toInt < 0 := by rw [Int64.lt_iff_toInt_lt, Int64.toInt_zero]
  have value := toNat_signContinued h
  have padded := wordsToNat_signed word (n.words.size - 1)
  rw [Nat.sub_add_cancel nonempty] at padded
  constructor
  · intro same
    have signs : word < 0 ↔ n.isNegative = true := by rw [word_sign, ← same, sign]
    refine ⟨by rw [Bool.eq_iff_iff, decide_eq_true_iff, signs], wordsToNat_injective ?_ ?_⟩
    · rw [Array.length_toList, size_signContinued, List.length_cons, List.length_replicate]
      omega
    · simp only [signs] at padded
      rw [← same] at padded
      exact Int.ofNat_inj.mp (value.trans padded.symm)
  · rintro ⟨signs, words⟩
    rw [Bool.eq_iff_iff, decide_eq_true_iff] at signs
    simp only [signs] at padded
    rw [toNat, words, padded] at value
    omega

theorem toInt64?_eq_some {n : WideInt} (h : n.Canonical) {word : Int64} :
    n.toInt64? = some word ↔ n.toInt = word.toInt := by
  by_cases narrow : n.bits ≤ 64
  · have single : n.words.size = 1 := by
      have positive := h.positive
      rw [h.size, wordCount]
      omega
    have value : n.toNat = (n.words.getD 0 0).toNat := by
      have rest : n.words.toList.drop 1 = [] :=
        List.drop_eq_nil_of_le (by rw [Array.length_toList, single])
      rw [toNat, toList_words h.nonempty, rest, wordsToNat_cons]
      rfl
    have bound := h.bound
    rw [value] at bound
    have shifted := toInt_shifted h.positive narrow bound
    rw [← value] at shifted
    have reading : n.toInt =
        if n.toNat < 2 ^ (n.bits - 1) then (n.toNat : Int) else n.toNat - 2 ^ n.bits := by
      rw [toInt, Nat.one_shiftLeft, Nat.one_shiftLeft]
      push_cast
      rfl
    rw [reading, ← shifted, toInt64?, if_pos narrow, Option.some.injEq, ← Int64.toInt_inj]
  · have nonempty : 0 < n.signContinued.words.size := by
      rw [size_signContinued]
      exact h.nonempty
    have continued := upperWordsAre_iff nonempty (if n.isNegative then ~~~0 else 0)
    rw [size_signContinued] at continued
    have unfolded : n.toInt64? =
        if n.signContinued.upperWordsAre (if n.isNegative then ~~~0 else 0) &&
            (decide ((n.signContinued.words.getD 0 0).toInt64 < 0) == n.isNegative) then
          some (n.signContinued.words.getD 0 0).toInt64
        else none := by
      rw [toInt64?, if_neg narrow]
      rfl
    rw [unfolded, toInt_eq_iff h, Option.ite_none_right_eq_some, Bool.and_eq_true, beq_iff_eq,
      continued, Option.some.injEq]
    constructor
    · rintro ⟨⟨words, sign⟩, rfl⟩
      exact ⟨sign, words⟩
    · rintro ⟨sign, words⟩
      have low : n.signContinued.words.getD 0 0 = word.toUInt64 :=
        (List.cons.inj ((toList_words nonempty).symm.trans words)).1
      rw [low]
      exact ⟨⟨words, sign⟩, rfl⟩

/-! ### Making and reading -/

theorem fromInt64_eq {bits : Nat} (valid : 1 ≤ bits ∧ bits ≤ 2 ^ 24 - 1) (value : Int64) :
    fromInt64 bits value = .ok (ofInt64 bits value) := by
  rw [fromInt64, checkWidth, if_pos (Literal.validWidth_iff.mpr valid)]
  rfl

theorem fromUInt64_eq {bits : Nat} (valid : 1 ≤ bits ∧ bits ≤ 2 ^ 24 - 1) (value : UInt64) :
    fromUInt64 bits value = .ok (ofUInt64 bits value) := by
  rw [fromUInt64, checkWidth, if_pos (Literal.validWidth_iff.mpr valid)]
  rfl

theorem isSome_toUInt64? {n : WideInt} (h : n.Canonical) :
    n.toUInt64?.isSome = true ↔ n.toNat < 2 ^ 64 := by
  rw [Option.isSome_iff_exists]
  constructor
  · rintro ⟨word, found⟩
    rw [(toUInt64?_eq_some h).mp found]
    exact word.toNat_lt
  · intro small
    refine ⟨UInt64.ofNat n.toNat, (toUInt64?_eq_some h).mpr ?_⟩
    rw [UInt64.toNat_ofNat_of_lt' small]

theorem isSome_toInt64? {n : WideInt} (h : n.Canonical) :
    n.toInt64?.isSome = true ↔ -2 ^ 63 ≤ n.toInt ∧ n.toInt < 2 ^ 63 := by
  rw [Option.isSome_iff_exists]
  constructor
  · rintro ⟨word, found⟩
    rw [(toInt64?_eq_some h).mp found]
    exact ⟨word.le_toInt, word.toInt_lt⟩
  · rintro ⟨above, below⟩
    refine ⟨Int64.ofInt n.toInt, (toInt64?_eq_some h).mpr ?_⟩
    rw [Int64.toInt_ofInt_of_le above below]

/-- An integer that is made from a signed or an unsigned word is the one that the decimal text of the
word is read as, which is congruent to the word modulo two to the width. Reading any integer as an
unsigned or a signed word gives the word exactly when it is the unsigned or the two's-complement value,
and gives one exactly when that value is in the range of such words. -/
theorem words_agree_with_literals_and_values :
    (∀ bits, 1 ≤ bits ∧ bits ≤ 2 ^ 24 - 1 →
      (∀ word : Int64, ∃ n, fromInt64 bits word = .ok n ∧
        (∀ ctx, (Build.literal bits (toString word.toInt) 10 ctx).result = .ok (.ok n, ctx)) ∧
        n.bits = bits ∧ (n.toNat : Int) = word.toInt % 2 ^ bits) ∧
      (∀ word : UInt64, ∃ n, fromUInt64 bits word = .ok n ∧
        (∀ ctx, (Build.literal bits (toString word.toNat) 10 ctx).result = .ok (.ok n, ctx)) ∧
        n.bits = bits ∧ n.toNat = word.toNat % 2 ^ bits)) ∧
    ∀ n : WideInt, n.Built →
      (∀ word : UInt64, n.toUInt64? = some word ↔ n.toNat = word.toNat) ∧
      (n.toUInt64?.isSome = true ↔ n.toNat < 2 ^ 64) ∧
      (∀ word : Int64, n.toInt64? = some word ↔ n.toInt = word.toInt) ∧
      (n.toInt64?.isSome = true ↔ -2 ^ 63 ≤ n.toInt ∧ n.toInt < 2 ^ 63) := by
  refine ⟨fun bits valid => ⟨fun word => ?_, fun word => ?_⟩, fun n built => ?_⟩
  · have built : (ofInt64 bits word).Built := .signed (Literal.validWidth_iff.mpr valid) word
    have congruent := toNat_ofInt64 valid.1 word
    exact ⟨_, fromInt64_eq valid word,
      Literal.literal_of_congruent valid built.canonical rfl congruent, rfl, congruent⟩
  · have built : (ofUInt64 bits word).Built := .unsigned (Literal.validWidth_iff.mpr valid) word
    have congruent := toNat_ofUInt64 valid.1 word
    refine ⟨_, fromUInt64_eq valid word,
      Literal.literal_of_congruent (i := word.toNat) valid built.canonical rfl ?_, rfl, congruent⟩
    rw [congruent]
    push_cast
    rfl
  · have h := built.canonical
    exact ⟨fun _ => toUInt64?_eq_some h, isSome_toUInt64? h, fun _ => toInt64?_eq_some h,
      isSome_toInt64? h⟩

/-- Minus two in 65 bits takes two words, of which one bit of the second is used: it fits a signed word
and no unsigned one. -/
theorem minusTwo_of_two_words : (1 ≤ 65 ∧ 65 ≤ 2 ^ 24 - 1) ∧ (ofInt64 65 (-2)).Built ∧
    (∀ ctx, (Build.literal 65 "-2" 10 ctx).result = .ok (.ok (ofInt64 65 (-2)), ctx)) ∧
    (ofInt64 65 (-2)).words.size = 2 ∧ (ofInt64 65 (-2)).toInt64? = some (-2) ∧
    (ofInt64 65 (-2)).toUInt64?.isSome = false := by
  have valid : 1 ≤ 65 ∧ 65 ≤ 2 ^ 24 - 1 := by decide
  have built : (ofInt64 65 (-2)).Built := .signed rfl (-2)
  obtain ⟨made, read⟩ := words_agree_with_literals_and_values
  obtain ⟨n, found, literal, -⟩ := (made 65 valid).1 (-2)
  obtain rfl := Except.ok.inj ((fromInt64_eq valid (-2)).symm.trans found)
  obtain ⟨-, unsigned, signed, -⟩ := read _ built
  have value : (ofInt64 65 (-2)).toInt = -2 := by decide +kernel
  have beyond : ¬(ofInt64 65 (-2)).toNat < 2 ^ 64 := by decide +kernel
  exact ⟨valid, built, literal, by decide +kernel, (signed (-2)).mpr value,
    Bool.eq_false_iff.mpr (mt unsigned.mp beyond)⟩

end WideInt
end ModuleIR
