import ModuleIR.Arena.Integers
import ModuleIR.Proofs.WideInt.Digits
import ModuleIR.Proofs.WideInt.Literals

set_option autoImplicit false

/-!
# Numerals are read back

The numeral of an integer is canonical: a minus exactly when the sign is asked for and the sign bit is
set, then the digits in lower case, the highest first and none of them a superfluous zero. It denotes
the signed or the unsigned value, and reading it in the width of the integer gives the integer without
truncation. The least signed integer is its own negation, which is the magnitude that is written.
-/
namespace ModuleIR.WideInt

/-! ### Canonical numerals -/

/-- The value of a digit that is not in upper case. -/
inductive LowerDigit (c : Char) : Nat → Prop
  | decimal {k : Nat} (small : k < 10) (code : c.toNat = '0'.toNat + k) : LowerDigit c k
  | letter {k : Nat} (small : k < 26) (code : c.toNat = 'a'.toNat + k) : LowerDigit c (10 + k)

/-- The text of a row of digits, the highest first, behind a minus if the number is negative. Zero is
written as one digit, and no other row begins with a zero. -/
structure CanonicalNumeral (radix : Nat) (text : String) (negative : Bool) (digits : List Nat) :
    Prop where
  spelled : ∃ row, text.toList = (if negative then ['-'] else []) ++ row ∧
    List.Forall₂ (fun c d => LowerDigit c d ∧ d < radix) row digits
  nonempty : digits ≠ []
  leading : digits.head? = some 0 → digits = [0]

theorem LowerDigit.value {c : Char} {d : Nat} (h : LowerDigit c d) : Literal.DigitValue c d := by
  cases h with
  | decimal small code => exact .decimal small code
  | letter small code => exact .lower small code

theorem CanonicalNumeral.spells {radix : Nat} {text : String} {negative : Bool} {digits : List Nat}
    (h : CanonicalNumeral radix text negative digits) :
    Literal.Spells radix text negative digits := by
  obtain ⟨row, content, spelled⟩ := h.spelled
  refine ⟨_, row, content, ?_, spelled.imp fun _ _ digit => ⟨digit.1.value, digit.2⟩, h.nonempty⟩
  cases negative with
  | false => exact .none
  | true => exact .minus

theorem lowerDigit_digitChar {d : Nat} (small : d < 36) : LowerDigit (digitChar d) d := by
  have code : ∀ d < 36, (digitChar d).toNat = if d < 10 then 48 + d else 87 + d := by decide
  have here := code d small
  by_cases decimal : d < 10
  · rw [if_pos decimal] at here
    exact .decimal decimal here
  · rw [if_neg decimal] at here
    obtain ⟨k, rfl⟩ : ∃ k, d = 10 + k := ⟨d - 10, by omega⟩
    exact .letter (by omega) (here.trans (by change _ = 97 + k; omega))

theorem digitValues_leading {radix : Nat} (n : WideInt)
    (zero : (n.digitValues radix).reverse.head? = some 0) : n.digitValues radix = [0] := by
  unfold digitValues at zero ⊢
  split at zero
  · rename_i none
    rw [if_pos none]
  · rename_i positive
    have nonempty := Nat.digits_ne_nil_iff_ne_zero (b := radix).mpr positive
    rw [List.head?_reverse, List.getLast?_eq_some_getLast nonempty] at zero
    exact absurd (Option.some.inj zero) (Nat.getLast_digit_ne_zero radix positive)

section Canonical

variable {n : WideInt} (h : n.Canonical)
include h

theorem canonicalNumeral_digits {radix : Nat} (valid : 2 ≤ radix ∧ radix ≤ 36) (negative : Bool) :
    CanonicalNumeral radix (String.ofList ((if negative then ['-'] else []) ++ n.digits radix))
      negative (n.digitValues radix).reverse where
  spelled := by
    have accepted : validNumeralRadix radix = true := by simp [validNumeralRadix, valid]
    refine ⟨n.digits radix, String.toList_ofList, ?_⟩
    rw [digits_eq accepted h, List.forall₂_map_left_iff]
    refine List.forall₂_same.mpr fun d mem => ?_
    have small := digitValues_lt accepted n d (List.mem_reverse.mp mem)
    exact ⟨lowerDigit_digitChar (by omega), small⟩
  nonempty := by
    have accepted : validNumeralRadix radix = true := by simp [validNumeralRadix, valid]
    have some := digits_ne_nil accepted h
    rwa [digits_eq accepted h, ne_eq, List.map_eq_nil_iff] at some
  leading zero := by rw [digitValues_leading n zero, List.reverse_singleton]

/-! ### What a numeral denotes -/

theorem toInt_eq : n.toInt = if n.isNegative then (n.toNat : Int) - 2 ^ n.bits else n.toNat := by
  have sign := isNegative_iff h
  rw [toInt, Nat.one_shiftLeft, Nat.one_shiftLeft]
  cases negative : n.isNegative with
  | false =>
    rw [negative] at sign
    rw [if_pos (Nat.lt_of_not_le fun half => Bool.false_ne_true (sign.mpr half))]
    rfl
  | true =>
    rw [if_neg (Nat.not_lt_of_le (sign.mp negative))]
    push_cast
    rfl

theorem toNat_negate (negative : n.isNegative = true) : n.negate.toNat = 2 ^ n.bits - n.toNat := by
  have half := (isNegative_iff h).mp negative
  have positive := Nat.two_pow_pos (n.bits - 1)
  rw [(negate_spec h).2, Nat.mod_eq_of_lt (by have := h.bound; omega)]

theorem numeral_denotes (signed : Bool) :
    ∃ magnitude : WideInt, magnitude.Canonical ∧
      (∀ radix, n.numeral radix signed = String.ofList
        ((if signed && n.isNegative then ['-'] else []) ++ magnitude.digits radix)) ∧
      Literal.signed (signed && n.isNegative) magnitude.toNat =
        (if signed then n.toInt else n.toNat) ∧
      ¬Literal.Exceeds n.bits (signed && n.isNegative) magnitude.toNat := by
  by_cases negative : (signed && n.isNegative) = true
  · obtain ⟨rfl, sign⟩ := (Bool.and_eq_true _ _).mp negative
    have half := (isNegative_iff h).mp sign
    have bound := h.bound
    refine ⟨n.negate, (negate_spec h).1, fun radix => ?_, ?_, ?_⟩
    · rw [numeral, negative]
      rfl
    · rw [negative, toNat_negate h sign, toInt_eq h, sign]
      simp only [Literal.signed, if_true]
      rw [Nat.cast_sub bound.le]
      push_cast
      ring
    · rw [negative, toNat_negate h sign]
      have double : 2 ^ n.bits = 2 * 2 ^ (n.bits - 1) := by
        rw [← Nat.pow_succ', Nat.succ_eq_add_one, Nat.sub_add_cancel h.positive]
      change ¬2 ^ (n.bits - 1) < _
      omega
  · rw [Bool.not_eq_true] at negative
    refine ⟨n, h, fun radix => ?_, ?_, ?_⟩
    · rw [numeral, negative]
      rfl
    · rw [negative]
      cases signed with
      | false => rfl
      | true =>
        rw [Bool.true_and] at negative
        rw [toInt_eq h, negative]
        rfl
    · rw [negative]
      exact Nat.not_le_of_lt h.bound

/-- Either reading of the value, cut to the width, is the value. -/
theorem denoted_emod (signed : Bool) :
    (if signed then n.toInt else n.toNat) % 2 ^ n.bits = (n.toNat : Int) := by
  have small : (n.toNat : Int) % 2 ^ n.bits = n.toNat :=
    Int.emod_eq_of_lt (by omega) (by exact_mod_cast h.bound)
  cases signed with
  | false => exact small
  | true =>
    rw [if_pos rfl, toInt_eq h]
    split
    · rw [Int.sub_emod_right]
      exact small
    · exact small

end Canonical

/-! ### Widths of integers that can be had -/

theorem Built.width {n : WideInt} (built : n.Built) : 1 ≤ n.bits ∧ n.bits ≤ 2 ^ 24 - 1 := by
  cases built with
  | signed valid => exact Literal.validWidth_iff.mp valid
  | unsigned valid => exact Literal.validWidth_iff.mp valid
  | literal accepted =>
    rw [Literal.bits_of_read accepted]
    exact (Literal.spells_of_read accepted).1

theorem read_of_denotes {n : WideInt} (built : n.Built) {radix : Nat} {text : String}
    {negative : Bool} {digits : List Nat} (supported : radix ∈ [2, 8, 10, 16, 36])
    (numeral : CanonicalNumeral radix text negative digits)
    (congruent : Literal.signed negative (Literal.magnitude radix digits) % 2 ^ n.bits = n.toNat)
    (fits : ¬Literal.Exceeds n.bits negative (Literal.magnitude radix digits)) :
    Literal.read n.bits text radix = .ok ⟨n, false⟩ := by
  obtain ⟨⟨value, truncated⟩, accepted, canonical, width, number, exceeds⟩ :=
    Literal.read_of_spells built.width supported numeral.spells
  obtain rfl : value = n :=
    canonical.ext built.canonical width (Int.ofNat_inj.mp (number.trans congruent))
  obtain rfl : truncated = false := Bool.eq_false_iff.mpr (mt exceeds.mp fits)
  exact accepted

/-- The numeral of an integer in any radix is canonical and denotes the integer, with a minus exactly
when the sign is asked for and the sign bit is set. In the radices of literals it is read back as the
same integer, and no truncation is reported. -/
theorem numeral_canonical_and_read_back {n : WideInt} (built : n.Built) (signed : Bool) {radix : Nat}
    (valid : 2 ≤ radix ∧ radix ≤ 36) :
    ∃ text digits, n.numeralIn radix signed = .ok text ∧
      CanonicalNumeral radix text (signed && n.toNat.testBit (n.bits - 1)) digits ∧
      Literal.signed (signed && n.toNat.testBit (n.bits - 1)) (Literal.magnitude radix digits) =
        (if signed then n.toInt else n.toNat) ∧
      (radix ∈ [2, 8, 10, 16, 36] → ∀ ctx,
        Build.literal n.bits text radix ctx = ⟨[], .ok (.ok n, ctx)⟩) := by
  have h := built.canonical
  obtain ⟨magnitude, canonical, written, denotes, fits⟩ := numeral_denotes h signed
  have number : Literal.magnitude radix (magnitude.digitValues radix).reverse = magnitude.toNat := by
    rw [Literal.magnitude, List.reverse_reverse, ofDigits_digitValues]
  have numeral := canonicalNumeral_digits canonical valid (signed && n.isNegative)
  rw [← written radix] at numeral
  rw [← number] at denotes fits
  rw [← isNegative_eq_testBit]
  refine ⟨n.numeral radix signed, _, ?_, numeral, denotes, fun supported ctx => ?_⟩
  · rw [numeralIn, if_pos (by simp [validNumeralRadix, valid])]
  · have accepted := read_of_denotes built supported numeral
      ((congrArg (· % _) denotes).trans (denoted_emod h signed)) fits
    rw [Literal.build_of_read accepted]
    rfl

/-- The least integer of eight bits is written with its own negation as magnitude. -/
theorem leastByte_read_back : (ofInt64 8 (-128)).Built ∧
    ∃ digits, (ofInt64 8 (-128)).numeralIn 16 true = .ok "-80" ∧
      CanonicalNumeral 16 "-80" true digits ∧ Literal.magnitude 16 digits = 128 ∧
      ∀ ctx, Build.literal 8 "-80" 16 ctx = ⟨[], .ok (.ok (ofInt64 8 (-128)), ctx)⟩ := by
  have built : (ofInt64 8 (-128)).Built := .signed rfl (-128)
  have valid : 2 ≤ 16 ∧ 16 ≤ 36 := by decide
  obtain ⟨text, digits, written, numeral, denotes, back⟩ :=
    numeral_canonical_and_read_back built true valid
  have computed : (ofInt64 8 (-128)).numeralIn 16 true = .ok "-80" := by decide +kernel
  obtain rfl := Except.ok.inj (computed.symm.trans written)
  have sign : (true && (ofInt64 8 (-128)).toNat.testBit 7) = true := by decide +kernel
  have value : (ofInt64 8 (-128)).toInt = -128 := by decide +kernel
  change CanonicalNumeral 16 "-80" (true && (ofInt64 8 (-128)).toNat.testBit 7) digits at numeral
  change Literal.signed (true && (ofInt64 8 (-128)).toNat.testBit 7) _ =
    (ofInt64 8 (-128)).toInt at denotes
  rw [sign] at numeral
  rw [sign, value] at denotes
  refine ⟨built, digits, computed, numeral, ?_, back (by decide)⟩
  change -((Literal.magnitude 16 digits : Nat) : Int) = -128 at denotes
  omega

end ModuleIR.WideInt
