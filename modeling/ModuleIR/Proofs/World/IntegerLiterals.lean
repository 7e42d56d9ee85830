import ModuleIR.Proofs.WideInt.Digits
import ModuleIR.Proofs.WideInt.Literals
import ModuleIR.Proofs.World.ConstantIdentity

set_option autoImplicit false

/-!
# Integer constants of literals

Every integer that is read or made has as many words as its width needs and a value below two to the
width, and arithmetic keeps that. So integers are equal exactly when width and value are, and two
literals, in any radices and with any signs, give one constant exactly when they have one width and
denote one value modulo two to the width.
-/
namespace ModuleIR

namespace WideInt

variable {n : WideInt}

theorem canonical_of_fromInt64 {bits : Nat} {value : Int64} (made : fromInt64 bits value = .ok n) :
    n.bits = bits ∧ n.Canonical := by
  obtain ⟨_, valid, made⟩ := Checked.bind_eq_ok.mp made
  obtain rfl := Except.ok.inj made
  exact ⟨rfl, (Built.signed (Build.checkWidth_eq_ok.mp valid) value).canonical⟩

theorem canonical_of_fromUInt64 {bits : Nat} {value : UInt64}
    (made : fromUInt64 bits value = .ok n) : n.bits = bits ∧ n.Canonical := by
  obtain ⟨_, valid, made⟩ := Checked.bind_eq_ok.mp made
  obtain rfl := Except.ok.inj made
  exact ⟨rfl, (Built.unsigned (Build.checkWidth_eq_ok.mp valid) value).canonical⟩

end WideInt

namespace Build

variable {ctx ctx' : Context} {bits radix : Nat} {text : String} {n : WideInt}

theorem literal_eq_ok : (literal bits text radix ctx).result = .ok (.ok n, ctx') ↔
    (∃ truncated, Literal.read bits text radix = .ok ⟨n, truncated⟩) ∧ ctx = ctx' := by
  cases read : Literal.read bits text radix with
  | error e => simp [Literal.build_of_error read]
  | ok literal =>
    obtain ⟨value, truncated⟩ := literal
    simp [Literal.build_of_read read]

theorem canonical_of_literal (read : (literal bits text radix ctx).result = .ok (.ok n, ctx')) :
    n.bits = bits ∧ n.Canonical := by
  obtain ⟨⟨truncated, accepted⟩, -⟩ := literal_eq_ok.mp read
  exact ⟨Literal.bits_of_read accepted, WideInt.canonical_read accepted⟩

end Build

namespace World

open Literal

/-- A literal is read on the context at `k`, and the constant of what was read is asked for. -/
inductive LiteralCall (w : World) (k bits : Nat) (text : String) (radix : Nat) :
    ConstantIntRef → World → Prop
  | call {ctx ctx' : Context} {n : WideInt} {c : ConstantIntRef} (found : w.contexts[k]? = some ctx)
      (read : (Build.literal bits text radix ctx).result = .ok (.ok n, ctx))
      (made : (Build.constantInt n ctx).result = .ok (c, ctx')) :
      LiteralCall w k bits text radix c
        { contexts := w.contexts.set k ctx', handles := w.handles ++ [.value .constantInt c.value] }

variable {w w' : World} {ctx : Context} {k bits radix : Nat} {text : String} {negative : Bool}
  {digits : List Nat}

theorem LiteralCall.found {c : ConstantIntRef} (call : w.LiteralCall k bits text radix c w') :
    ∃ ctx', w'.contexts[k]? = some ctx' := by
  obtain ⟨found, -, -⟩ := call
  exact ⟨_, List.getElem?_set_self (List.getElem?_eq_some_iff.mp found).1⟩

section Spelled

variable (valid : 1 ≤ bits ∧ bits ≤ 2 ^ 24 - 1) (supported : radix ∈ [2, 8, 10, 16, 36])
  (spelled : Spells radix text negative digits)
include valid supported spelled

theorem literalCall_of_spells (found : w.contexts[k]? = some ctx) :
    ∃ c w', w.LiteralCall k bits text radix c w' := by
  obtain ⟨⟨n, truncated⟩, accepted, -, width, -⟩ := read_of_spells valid supported spelled
  have fits : WideInt.validWidth n.bits = true := by
    rw [show n.bits = bits from width]
    exact validWidth_iff.mpr valid
  obtain ⟨c, ctx', made⟩ := Build.constantInt_runs ctx fits
  exact ⟨c, _, .call found (Build.literal_eq_ok.mpr ⟨⟨truncated, accepted⟩, rfl⟩) made⟩

/-- The constant that is asked for is the one of the width and the value modulo two to the width. -/
theorem LiteralCall.constantCall {c : ConstantIntRef} (call : w.LiteralCall k bits text radix c w') :
    w.ConstantCall k (.int bits (signed negative (magnitude radix digits) % 2 ^ bits)) c.value w' := by
  obtain @⟨ctx, ctx', n, _, found, read, made⟩ := call
  obtain ⟨⟨truncated, accepted⟩, -⟩ := Build.literal_eq_ok.mp read
  obtain ⟨literal, again, -, width, value, -⟩ := read_of_spells valid supported spelled
  obtain rfl := Except.ok.inj (again.symm.trans accepted)
  rw [← value, ← width]
  have run : ((Request.constantInt n (.literal accepted)).run ctx).result =
      .ok ([.value .constantInt c.value], ctx') :=
    Build.bind_eq_ok.mpr ⟨c, _, made, Build.pure_eq_ok.mpr ⟨rfl, rfl⟩⟩
  exact .call found (by simp [Request.handles]) .int run

end Spelled

/-- Integers are canonical, and so integer constants are uniqued by width and value. An integer that is
read from a literal or made from a word has as many words as its width needs and a value below two to
the width; multiplying and adding a word, dividing by a word and negating keep that, and the width. Two
such integers are equal exactly when their widths and values are. A literal that spells a number gives
a constant in every context; of two literals, with any operations between the calls, the constants are
the same exactly when the widths are and the numbers are congruent modulo two to the width. -/
theorem integer_constants_by_width_and_residue :
    (∀ bits text radix ctx ctx' n,
      (Build.literal bits text radix ctx).result = .ok (.ok n, ctx') → n.bits = bits ∧ n.Canonical) ∧
    (∀ bits value n, WideInt.fromInt64 bits value = .ok n → n.bits = bits ∧ n.Canonical) ∧
    (∀ bits value n, WideInt.fromUInt64 bits value = .ok n → n.bits = bits ∧ n.Canonical) ∧
    (∀ n : WideInt, n.Canonical →
      (n.words.size = (n.bits + 63) / 64 ∧ n.toNat < 2 ^ n.bits) ∧
      (∀ factor addend, (n.mulAdd factor addend).1.bits = n.bits ∧
        (n.mulAdd factor addend).1.Canonical) ∧
      (∀ divisor, 0 < divisor → (n.divRem divisor).1.bits = n.bits ∧
        (n.divRem divisor).1.Canonical) ∧
      n.negate.bits = n.bits ∧ n.negate.Canonical ∧
      ∀ n' : WideInt, n'.Canonical → (n = n' ↔ n.bits = n'.bits ∧ n.toNat = n'.toNat)) ∧
    ∀ w : World, w.Reachable → ∀ k ctx, w.contexts[k]? = some ctx →
      ∀ bits text radix negative digits, 1 ≤ bits ∧ bits ≤ 2 ^ 24 - 1 →
        radix ∈ [2, 8, 10, 16, 36] → Spells radix text negative digits →
        (∃ c w₁, w.LiteralCall k bits text radix c w₁) ∧
        ∀ bits' text' radix' negative' digits', 1 ≤ bits' ∧ bits' ≤ 2 ^ 24 - 1 →
          radix' ∈ [2, 8, 10, 16, 36] → Spells radix' text' negative' digits' →
          ∀ c w₁ w₂ c' w₃, w.LiteralCall k bits text radix c w₁ →
            Relation.ReflTransGen Step w₁ w₂ → w₂.LiteralCall k bits' text' radix' c' w₃ →
            (c = c' ↔ bits = bits' ∧ signed negative (magnitude radix digits) % 2 ^ bits =
              signed negative' (magnitude radix' digits') % 2 ^ bits) := by
  refine ⟨fun _ _ _ _ _ _ => Build.canonical_of_literal, fun _ _ _ => WideInt.canonical_of_fromInt64,
    fun _ _ _ => WideInt.canonical_of_fromUInt64, fun n h => ?_, ?_⟩
  · refine ⟨⟨h.size, h.bound⟩, fun factor addend => ⟨rfl, WideInt.canonical_mulAdd h factor addend⟩,
      fun divisor positive => ⟨?_, WideInt.canonical_divRem h positive⟩, rfl,
      (WideInt.negate_spec h).1, fun n' h' => h.ext_iff h'⟩
    exact (WideInt.divRem_spec n positive).1
  · intro w reachable k ctx found bits text radix negative digits valid supported spelled
    refine ⟨literalCall_of_spells valid supported spelled found, ?_⟩
    intro bits' text' radix' negative' digits' valid' supported' spelled' c w₁ w₂ c' w₃ call steps call'
    have unique := (call.constantCall valid supported spelled).eq_iff reachable steps
      (call'.constantCall valid' supported' spelled')
    rw [ConstantForm.int.injEq] at unique
    calc c = c' ↔ c.value = c'.value := ConstantIntRef.mk.injEq .. ▸ Iff.rfl
      _ ↔ bits = bits' ∧ signed negative (magnitude radix digits) % 2 ^ bits =
            signed negative' (magnitude radix' digits') % 2 ^ bits' := unique
      _ ↔ _ := and_congr_right fun same => by rw [same]

/-- Minus one and the hexadecimal 255 are one byte, and the decimal 255 of 16 bits is another constant. -/
theorem minusOne_as_hexadecimal : WideInt.ofInt64 8 (-1) = WideInt.ofUInt64 8 255 ∧
    ∃ c w₁ c' w₂ c'' w₃, (after [.context]).LiteralCall 0 8 "-1" 10 c w₁ ∧
      w₁.LiteralCall 0 8 "+fF" 16 c' w₂ ∧ w₂.LiteralCall 0 16 "255" 10 c'' w₃ ∧ c = c' ∧ c ≠ c'' := by
  have minus : Spells 10 "-1" true [1] :=
    ⟨['-'], ['1'], rfl, .minus, .cons ⟨.decimal (by decide) rfl, by decide⟩ .nil, by decide⟩
  have hexadecimal : Spells 16 "+fF" false [15, 15] :=
    ⟨['+'], ['f', 'F'], rfl, .plus, .cons ⟨.lower (k := 5) (by decide) rfl, by decide⟩
      (.cons ⟨.upper (k := 5) (by decide) rfl, by decide⟩ .nil), by decide⟩
  have decimal : Spells 10 "255" false [2, 5, 5] :=
    ⟨[], ['2', '5', '5'], rfl, .none, .cons ⟨.decimal (by decide) rfl, by decide⟩
      (.cons ⟨.decimal (by decide) rfl, by decide⟩
        (.cons ⟨.decimal (by decide) rfl, by decide⟩ .nil)), by decide⟩
  obtain ⟨-, signed, unsigned, canonical, uniqued⟩ := integer_constants_by_width_and_residue
  have reachable : (after [.context]).Reachable := reachable_after (by decide +kernel)
  have computed : ((after [.context]).contexts[0]?).isSome = true := by decide +kernel
  obtain ⟨ctx, found⟩ := Option.isSome_iff_exists.mp computed
  refine ⟨?_, ?_⟩
  · have first := (signed 8 (-1) _ rfl).2
    have second := (unsigned 8 255 _ rfl).2
    exact ((canonical _ first).2.2.2.2.2 _ second).mpr (by decide)
  · have byte : 1 ≤ 8 ∧ 8 ≤ 2 ^ 24 - 1 := by decide
    obtain ⟨⟨c, w₁, call⟩, same⟩ :=
      uniqued _ reachable 0 ctx found 8 "-1" 10 true [1] byte (by decide) minus
    have step := (call.constantCall byte (by decide) minus).step
    obtain ⟨ctx₁, found₁⟩ := call.found
    obtain ⟨⟨c', w₂, call'⟩, -⟩ := uniqued _ (reachable.step step) 0 ctx₁ found₁ 8 "+fF" 16 false
      [15, 15] byte (by decide) hexadecimal
    have step' := (call'.constantCall byte (by decide) hexadecimal).step
    obtain ⟨ctx₂, found₂⟩ := call'.found
    obtain ⟨⟨c'', w₃, call''⟩, -⟩ := uniqued _ ((reachable.step step).step step') 0 ctx₂ found₂ 16
      "255" 10 false [2, 5, 5] (by decide) (by decide) decimal
    have equal := same 8 _ 16 _ _ byte (by decide) hexadecimal _ _ _ _ _ call .refl call'
    have different :=
      same 16 _ 10 _ _ (by decide) (by decide) decimal _ _ _ _ _ call (.single step') call''
    exact ⟨c, w₁, c', w₂, c'', w₃, call, call', call'', equal.mpr (by decide),
      fun h => absurd (different.mp h).1 (by decide)⟩

end World
end ModuleIR
