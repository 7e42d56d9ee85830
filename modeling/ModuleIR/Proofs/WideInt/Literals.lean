import Mathlib.Data.Nat.Digits.Lemmas
import ModuleIR.Build.Constants
import ModuleIR.Proofs.WideInt.Bits
import ModuleIR.Proofs.WideInt.Products

set_option autoImplicit false

/-!
# Reading integer literals

A text spells a row of digits after at most one sign. Reading succeeds exactly on such texts and gives
the two's complement of the unbounded number in the width asked for; it reports truncation exactly
when that number is beyond the width. What is read so far stands for the unbounded number of the
digits so far, cut to the width, and the mark of truncation stays once it is set.
-/
namespace ModuleIR
namespace Literal

/-! ### What a text spells -/

/-- The value of a digit: the decimal digits, then the letters in either case. -/
inductive DigitValue (c : Char) : Nat → Prop
  | decimal {k : Nat} (small : k < 10) (code : c.toNat = '0'.toNat + k) : DigitValue c k
  | lower {k : Nat} (small : k < 26) (code : c.toNat = 'a'.toNat + k) : DigitValue c (10 + k)
  | upper {k : Nat} (small : k < 26) (code : c.toNat = 'A'.toNat + k) : DigitValue c (10 + k)

/-- At most one sign; the flag is set for a minus. -/
inductive Sign : List Char → Bool → Prop
  | none : Sign [] false
  | plus : Sign ['+'] false
  | minus : Sign ['-'] true

def DigitRow (radix : Nat) (cs : List Char) (digits : List Nat) : Prop :=
  List.Forall₂ (fun c d => DigitValue c d ∧ d < radix) cs digits

/-- After its sign the text is a row of digits of the radix, the highest first, and at least one. -/
def Spells (radix : Nat) (text : String) (negative : Bool) (digits : List Nat) : Prop :=
  ∃ sign row, text.toList = sign ++ row ∧ Sign sign negative ∧ DigitRow radix row digits ∧ digits ≠ []

def magnitude (radix : Nat) (digits : List Nat) : Nat := Nat.ofDigits radix digits.reverse

def signed (negative : Bool) (n : Nat) : Int := if negative then -n else n

/-- The number is beyond the width: two to the width without a minus, half of it with one. -/
def Exceeds (bits : Nat) (negative : Bool) (n : Nat) : Prop :=
  if negative then 2 ^ (bits - 1) < n else 2 ^ bits ≤ n

instance (bits : Nat) (negative : Bool) (n : Nat) : Decidable (Exceeds bits negative n) :=
  inferInstanceAs (Decidable (if negative then _ else _))

/-! ### Digits and signs -/

theorem digitValue?_eq_some {radix : Nat} {c : Char} {d : Nat} :
    digitValue? radix c = some d ↔ DigitValue c d ∧ d < radix := by
  have between (a b : Char) : (decide (a ≤ c) && decide (c ≤ b)) = true ↔
      a.toNat ≤ c.toNat ∧ c.toNat ≤ b.toNat := by
    rw [Bool.and_eq_true, decide_eq_true_iff, decide_eq_true_iff]
    rfl
  have decimals := between '0' '9'
  have lowers := between 'a' 'z'
  have uppers := between 'A' 'Z'
  change _ ↔ 48 ≤ _ ∧ _ ≤ 57 at decimals
  change _ ↔ 97 ≤ _ ∧ _ ≤ 122 at lowers
  change _ ↔ 65 ≤ _ ∧ _ ≤ 90 at uppers
  simp only [digitValue?, Option.filter_eq_some_iff, decimals, lowers, uppers, decide_eq_true_eq]
  refine and_congr_left fun _ => ⟨fun found => ?_, fun value => ?_⟩
  · split at found
    · obtain rfl := Option.some.inj found
      exact .decimal (by omega) (by change c.toNat = 48 + _; omega)
    · split at found
      · obtain rfl := Option.some.inj found
        obtain ⟨k, code⟩ : ∃ k, c.toNat = 97 + k := ⟨c.toNat - 97, by omega⟩
        rw [show c.toNat - 87 = 10 + k by omega]
        exact .lower (by omega) code
      · split at found
        · obtain rfl := Option.some.inj found
          obtain ⟨k, code⟩ : ∃ k, c.toNat = 65 + k := ⟨c.toNat - 65, by omega⟩
          rw [show c.toNat - 55 = 10 + k by omega]
          exact .upper (by omega) code
        · cases found
  · cases value with
    | decimal small code =>
      change c.toNat = 48 + _ at code
      rw [if_pos (by omega), code, Nat.add_sub_cancel_left]
    | @lower k small code =>
      change c.toNat = 97 + _ at code
      rw [if_neg (by omega), if_pos (by omega), code]
      congr 1
      omega
    | @upper k small code =>
      change c.toNat = 65 + _ at code
      rw [if_neg (by omega), if_neg (by omega), if_pos (by omega), code]
      congr 1
      omega

theorem sign_splitSign (cs : List Char) :
    ∃ sign, cs = sign ++ (splitSign cs).2 ∧ Sign sign (splitSign cs).1 := by
  unfold splitSign
  split
  · exact ⟨_, rfl, .minus⟩
  · exact ⟨_, rfl, .plus⟩
  · exact ⟨_, rfl, .none⟩

theorem splitSign_eq {radix : Nat} {sign row : List Char} {negative : Bool} {digits : List Nat}
    (h : Sign sign negative) (digital : DigitRow radix row digits) :
    splitSign (sign ++ row) = (negative, row) := by
  cases h with
  | plus => rfl
  | minus => rfl
  | none =>
    cases digital with
    | nil => rfl
    | @cons c _ rest _ value _ =>
      change splitSign (c :: rest) = _
      unfold splitSign
      split
      · rename_i first
        obtain rfl := (List.cons.inj first).1
        cases digitValue?_eq_some.mpr value
      · rename_i first
        obtain rfl := (List.cons.inj first).1
        cases digitValue?_eq_some.mpr value
      · rfl

theorem spells_iff {radix : Nat} {text : String} {negative : Bool} {digits : List Nat} :
    Spells radix text negative digits ↔
      (splitSign text.toList).1 = negative ∧ DigitRow radix (splitSign text.toList).2 digits ∧
        digits ≠ [] := by
  constructor
  · rintro ⟨sign, row, content, marked, digital, nonempty⟩
    rw [content, splitSign_eq marked digital]
    exact ⟨rfl, digital, nonempty⟩
  · rintro ⟨rfl, digital, nonempty⟩
    obtain ⟨sign, content, marked⟩ := sign_splitSign text.toList
    exact ⟨sign, _, content, marked, digital, nonempty⟩

/-! ### Reading digits -/

/-- What is held while the digits so far stand for `n`. -/
structure Holds (bits n : Nat) (read : Literal) : Prop where
  canonical : read.value.Canonical
  width : read.value.bits = bits
  value : read.value.toNat = n % 2 ^ bits
  truncated : read.truncated = true ↔ 2 ^ bits ≤ n

theorem holds_zero {bits : Nat} (positive : 0 < bits) : Holds bits 0 ⟨WideInt.zero bits, false⟩ where
  canonical := WideInt.canonical_zero positive
  width := rfl
  value := by rw [Nat.zero_mod, WideInt.toNat_zero]
  truncated := by simp

/-- One more digit: what has wrapped already keeps its mark, as the number only grows. -/
theorem Holds.mulAdd {bits n : Nat} {read : Literal} (h : Holds bits n read) {radix d : Nat}
    (supported : 0 < radix ∧ radix ≤ 36) (small : d < radix) :
    Holds bits (n * radix + d)
      ⟨(read.value.mulAdd (UInt64.ofNat radix) (UInt64.ofNat d)).1,
        read.truncated || (read.value.mulAdd (UInt64.ofNat radix) (UInt64.ofNat d)).2⟩ := by
  obtain ⟨value, lost⟩ := WideInt.mulAdd_spec h.canonical (UInt64.ofNat radix) (UInt64.ofNat d)
  have factor : (UInt64.ofNat radix).toNat = radix :=
    UInt64.toNat_ofNat_of_lt' (by change radix < 2 ^ 64; omega)
  have addend : (UInt64.ofNat d).toNat = d :=
    UInt64.toNat_ofNat_of_lt' (by change d < 2 ^ 64; omega)
  rw [factor, addend, h.width, h.value] at value lost
  refine ⟨WideInt.canonical_mulAdd h.canonical _ _, h.width, ?_, ?_⟩
  · calc (read.value.mulAdd (UInt64.ofNat radix) (UInt64.ofNat d)).1.toNat
        = (n % 2 ^ bits * radix + d) % 2 ^ bits := value
      _ = (n * radix + d) % 2 ^ bits := ((Nat.mod_modEq n _).mul_right radix).add_right d
  · rw [Bool.or_eq_true, h.truncated, lost]
    have grows : n ≤ n * radix := Nat.le_mul_of_pos_right n supported.1
    by_cases wrapped : 2 ^ bits ≤ n
    · simp only [wrapped, true_or, true_iff]
      omega
    · rw [Nat.mod_eq_of_lt (by omega)]
      simp [wrapped]

theorem accumulate_of_digitRow {bits n : Nat} {read : Literal} {radix : Nat} {cs : List Char}
    {digits : List Nat} (supported : 0 < radix ∧ radix ≤ 36) (h : Holds bits n read)
    (row : DigitRow radix cs digits) :
    ∃ literal, accumulate radix read cs = .ok literal ∧
      Holds bits (digits.foldl (fun n d => n * radix + d) n) literal := by
  induction row generalizing n read with
  | nil => exact ⟨read, rfl, h⟩
  | cons digit _ ih =>
    obtain ⟨literal, done, holds⟩ := ih (h.mulAdd supported digit.2)
    refine ⟨literal, ?_, holds⟩
    rw [accumulate, digitValue?_eq_some.mpr digit]
    exact done

theorem digitRow_of_accumulate {radix : Nat} {read literal : Literal} {cs : List Char}
    (done : accumulate radix read cs = .ok literal) : ∃ digits, DigitRow radix cs digits := by
  induction cs generalizing read with
  | nil => exact ⟨[], .nil⟩
  | cons c rest ih =>
    rw [accumulate] at done
    split at done
    · cases done
    · rename_i d digit
      obtain ⟨digits, row⟩ := ih done
      exact ⟨d :: digits, .cons (digitValue?_eq_some.mp digit) row⟩

theorem magnitude_eq_foldl (radix : Nat) (digits : List Nat) :
    magnitude radix digits = digits.foldl (fun n d => n * radix + d) 0 := by
  rw [magnitude, Nat.ofDigits_eq_foldr, List.foldr_reverse]
  congr 1
  funext n d
  rw [Nat.cast_id, Nat.add_comm, Nat.mul_comm]

/-! ### Signs -/

/-- Negation in the width is the negative of the unbounded number, cut to the width. -/
theorem neg_emod (n m : Nat) (positive : 0 < m) : (((m - n % m) % m : Nat) : Int) = -n % m := by
  have below : n % m ≤ m := (Nat.mod_lt n positive).le
  have split : ((m - n % m : Nat) : Int) = -n + m * ((n : Int) / m + 1) := by
    rw [Nat.cast_sub below, Int.natCast_mod, Int.emod_def]
    ring
  rw [Int.natCast_mod, split, Int.add_mul_emod_self_left]

theorem Holds.applySign {bits n : Nat} {read : Literal} (h : Holds bits n read) (negative : Bool) :
    (applySign negative read).value.Canonical ∧ (applySign negative read).value.bits = bits ∧
      ((applySign negative read).value.toNat : Int) = signed negative n % 2 ^ bits ∧
      ((applySign negative read).truncated = true ↔ Exceeds bits negative n) := by
  cases negative with
  | false =>
    refine ⟨h.canonical, h.width, ?_, h.truncated⟩
    change (read.value.toNat : Int) = n % 2 ^ bits
    rw [h.value]
    push_cast
    rfl
  | true =>
    obtain ⟨canonical, value⟩ := WideInt.negate_spec h.canonical
    rw [h.width, h.value] at value
    refine ⟨canonical, h.width, ?_, ?_⟩
    · change (read.value.negate.toNat : Int) = -n % 2 ^ bits
      rw [value, neg_emod n _ (Nat.two_pow_pos bits)]
      push_cast
      rfl
    · change (read.truncated || !read.truncated && read.value.isNegative && !read.value.isLeast) =
        true ↔ 2 ^ (bits - 1) < n
      have half : 2 ^ (bits - 1) < 2 ^ bits := by
        have := h.canonical.positive
        rw [h.width] at this
        exact Nat.pow_lt_pow_right (by decide) (by omega)
      by_cases wrapped : 2 ^ bits ≤ n
      · rw [h.truncated.mpr wrapped, Bool.true_or]
        simp only [true_iff]
        omega
      · have fits : read.truncated = false := Bool.eq_false_iff.mpr (mt h.truncated.mp wrapped)
        have negative := WideInt.isNegative_iff h.canonical
        have least := WideInt.isLeast_iff (n := read.value)
        rw [h.width, h.value, Nat.mod_eq_of_lt (by omega)] at negative least
        rw [fits, Bool.false_or, Bool.not_false, Bool.true_and, Bool.and_eq_true, negative,
          Bool.not_eq_true', ← Bool.not_eq_true, least]
        omega

/-! ### Reading a text -/

theorem validWidth_iff {bits : Nat} :
    WideInt.validWidth bits = true ↔ 1 ≤ bits ∧ bits ≤ 2 ^ 24 - 1 := by
  rw [WideInt.validWidth, Bool.and_eq_true, decide_eq_true_iff, decide_eq_true_iff]
  rfl

theorem supported_iff {radix : Nat} :
    supportedRadices.contains radix = true ↔ radix ∈ [2, 8, 10, 16, 36] := List.contains_iff_mem

theorem bounds_of_supported {radix : Nat} (supported : radix ∈ [2, 8, 10, 16, 36]) :
    0 < radix ∧ radix ≤ 36 := by
  revert radix
  decide

section
variable {bits radix : Nat} {text : String}

theorem read_of_not_width (invalid : ¬(1 ≤ bits ∧ bits ≤ 2 ^ 24 - 1)) :
    read bits text radix = .error (.width bits) := by
  rw [read, Bool.eq_false_iff.mpr (mt validWidth_iff.mp invalid)]
  rfl

theorem read_of_not_radix (valid : 1 ≤ bits ∧ bits ≤ 2 ^ 24 - 1)
    (unsupported : radix ∉ [2, 8, 10, 16, 36]) : read bits text radix = .error (.radix radix) := by
  rw [read, validWidth_iff.mpr valid, Bool.eq_false_iff.mpr (mt supported_iff.mp unsupported)]
  rfl

variable (valid : 1 ≤ bits ∧ bits ≤ 2 ^ 24 - 1) (supported : radix ∈ [2, 8, 10, 16, 36])
include valid supported

theorem read_of_valid : read bits text radix =
    if (splitSign text.toList).2.isEmpty then .error (.malformed text "no digits")
    else match accumulate radix ⟨WideInt.zero bits, false⟩ (splitSign text.toList).2 with
      | .error c => .error (.malformed text s!"invalid digit '{c}' for radix {radix}")
      | .ok literal => .ok (applySign (splitSign text.toList).1 literal) := by
  rw [read, validWidth_iff.mpr valid, supported_iff.mpr supported]
  rfl

theorem read_of_not_spells (unspelled : ¬∃ negative digits, Spells radix text negative digits) :
    ∃ reason, read bits text radix = .error (.malformed text reason) := by
  rw [read_of_valid valid supported]
  split
  · exact ⟨_, rfl⟩
  · rename_i nonempty
    split
    · exact ⟨_, rfl⟩
    · rename_i literal done
      obtain ⟨digits, row⟩ := digitRow_of_accumulate done
      refine absurd ⟨_, digits, spells_iff.mpr ⟨rfl, row, ?_⟩⟩ unspelled
      rintro rfl
      rw [List.forall₂_nil_right_iff.mp row] at nonempty
      exact nonempty rfl

theorem read_of_spells {negative : Bool} {digits : List Nat}
    (spelled : Spells radix text negative digits) :
    ∃ literal, read bits text radix = .ok literal ∧ literal.value.Canonical ∧
      literal.value.bits = bits ∧
      (literal.value.toNat : Int) = signed negative (magnitude radix digits) % 2 ^ bits ∧
      (literal.truncated = true ↔ Exceeds bits negative (magnitude radix digits)) := by
  obtain ⟨rfl, row, nonempty⟩ := spells_iff.mp spelled
  have some : (splitSign text.toList).2.isEmpty = false := by
    refine List.isEmpty_eq_false_iff.mpr fun none => nonempty ?_
    rw [none] at row
    exact List.forall₂_nil_left_iff.mp row
  obtain ⟨literal, done, holds⟩ :=
    accumulate_of_digitRow (bounds_of_supported supported) (holds_zero valid.1) row
  rw [← magnitude_eq_foldl] at holds
  rw [read_of_valid valid supported, some, done]
  exact ⟨_, rfl, holds.applySign _⟩

end

theorem spells_of_read {bits radix : Nat} {text : String} {literal : Literal}
    (accepted : read bits text radix = .ok literal) :
    (1 ≤ bits ∧ bits ≤ 2 ^ 24 - 1) ∧ radix ∈ [2, 8, 10, 16, 36] ∧
      ∃ negative digits, Spells radix text negative digits := by
  have valid : 1 ≤ bits ∧ bits ≤ 2 ^ 24 - 1 := by
    by_contra invalid
    rw [read_of_not_width invalid] at accepted
    cases accepted
  have supported : radix ∈ [2, 8, 10, 16, 36] := by
    by_contra unsupported
    rw [read_of_not_radix valid unsupported] at accepted
    cases accepted
  refine ⟨valid, supported, ?_⟩
  by_contra unspelled
  obtain ⟨_, rejected⟩ := read_of_not_spells valid supported unspelled
  rw [rejected] at accepted
  cases accepted

theorem bits_of_read {bits radix : Nat} {text : String} {literal : Literal}
    (accepted : read bits text radix = .ok literal) : literal.value.bits = bits := by
  obtain ⟨valid, supported, _, _, spelled⟩ := spells_of_read accepted
  obtain ⟨literal, again, _, width, _⟩ := read_of_spells valid supported spelled
  obtain rfl := Except.ok.inj (again.symm.trans accepted)
  exact width

theorem build_of_read {bits radix : Nat} {text : String} {literal : Literal}
    (accepted : read bits text radix = .ok literal) (ctx : Context) :
    Build.literal bits text radix ctx =
      ⟨if literal.truncated then [.literalTruncated text literal.value] else [],
        .ok (.ok literal.value, ctx)⟩ := by
  rw [Build.literal, accepted]
  cases truncated : literal.truncated <;> simp only [truncated] <;> rfl

theorem build_of_error {bits radix : Nat} {text : String} {error : LiteralError}
    (rejected : read bits text radix = .error error) (ctx : Context) :
    Build.literal bits text radix ctx = ⟨[], .ok (.error error, ctx)⟩ := by
  rw [Build.literal, rejected]
  rfl

/-- Reading a literal is exact two's complement. A bad width is reported before a bad radix and that
before a text that is no row of digits after at most one sign. Every other text gives the integer of
the width that is congruent to the unbounded number, in as many words as the width needs, and warns of
truncation exactly when that number is beyond the width. -/
theorem literal_reads_twos_complement (bits : Nat) (text : String) (radix : Nat) (ctx : Context) :
    (¬(1 ≤ bits ∧ bits ≤ 2 ^ 24 - 1) →
      Build.literal bits text radix ctx = ⟨[], .ok (.error (.width bits), ctx)⟩) ∧
    (1 ≤ bits ∧ bits ≤ 2 ^ 24 - 1 → radix ∉ [2, 8, 10, 16, 36] →
      Build.literal bits text radix ctx = ⟨[], .ok (.error (.radix radix), ctx)⟩) ∧
    (1 ≤ bits ∧ bits ≤ 2 ^ 24 - 1 → radix ∈ [2, 8, 10, 16, 36] →
      ((¬∃ negative digits, Spells radix text negative digits) →
        ∃ reason, Build.literal bits text radix ctx =
          ⟨[], .ok (.error (.malformed text reason), ctx)⟩) ∧
      ∀ negative digits, Spells radix text negative digits →
        ∃ value : WideInt, Build.literal bits text radix ctx =
            ⟨if Exceeds bits negative (magnitude radix digits) then [.literalTruncated text value]
              else [], .ok (.ok value, ctx)⟩ ∧
          value.bits = bits ∧ value.words.size = (bits + 63) / 64 ∧
          (value.toNat : Int) = signed negative (magnitude radix digits) % 2 ^ bits) := by
  refine ⟨fun invalid => build_of_error (read_of_not_width invalid) ctx,
    fun valid unsupported => build_of_error (read_of_not_radix valid unsupported) ctx,
    fun valid supported => ⟨fun unspelled => ?_, fun negative digits spelled => ?_⟩⟩
  · obtain ⟨reason, rejected⟩ := read_of_not_spells valid supported unspelled
    exact ⟨reason, build_of_error rejected ctx⟩
  · obtain ⟨literal, accepted, canonical, width, value, truncated⟩ :=
      read_of_spells valid supported spelled
    refine ⟨literal.value, ?_, width, ?_, value⟩
    · rw [build_of_read accepted]
      simp only [truncated]
    · rw [canonical.size, width]
      rfl

/-- Minus 81 in radix 16 is beyond eight bits, and its two's complement is 127. -/
theorem literal_reads_minus_hexadecimal :
    Spells 16 "-81" true [8, 1] ∧ Exceeds 8 true (magnitude 16 [8, 1]) ∧
      ∃ value : WideInt, Build.literal 8 "-81" 16 default =
          ⟨[.literalTruncated "-81" value], .ok (.ok value, default)⟩ ∧
        value.bits = 8 ∧ value.toNat = 127 := by
  have spelled : Spells 16 "-81" true [8, 1] :=
    ⟨['-'], ['8', '1'], rfl, .minus, .cons ⟨.decimal (by decide) rfl, by decide⟩
      (.cons ⟨.decimal (by decide) rfl, by decide⟩ .nil), by decide⟩
  have beyond : Exceeds 8 true (magnitude 16 [8, 1]) := by decide
  obtain ⟨value, done, width, -, number⟩ :=
    ((literal_reads_twos_complement 8 "-81" 16 default).2.2 (by decide) (by decide)).2
      true [8, 1] spelled
  rw [if_pos beyond] at done
  have residue : signed true (magnitude 16 [8, 1]) % 2 ^ 8 = (127 : Nat) := by decide
  rw [residue] at number
  exact ⟨spelled, beyond, value, done, width, Int.ofNat_inj.mp number⟩

end Literal
end ModuleIR
