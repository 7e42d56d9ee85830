import ModuleIR.Text.Escape

set_option autoImplicit false

/-!
# Written names and bytes

What escaping and quoting write, character by character: printable ASCII, the double quote only
around a quoted name. Escaped bytes are read back by `unescape`, so that neither escaped bytes nor
written names are alike unless what they stand for is the same.
-/
namespace ModuleIR.Text

def isPrintable (c : Char) : Bool := ' ' ≤ c && c ≤ '~'

def Printable (s : String) : Prop := ∀ c ∈ s.toList, isPrintable c = true

instance : DecidablePred Printable := fun s =>
  List.decidableBAll (fun c => isPrintable c = true) s.toList

def isIdentChar (c : Char) : Bool := c.toNat < 128 && isIdentByte (UInt8.ofNat c.toNat)

@[simp] theorem printable_append {s t : String} :
    Printable (s ++ t) ↔ Printable s ∧ Printable t := by
  simp only [Printable, String.toList_append, List.mem_append, or_imp, forall_and]

theorem printable_of_identChars {s : String} (h : ∀ c ∈ s.toList, isIdentChar c = true) :
    Printable s := by
  have ascii : ∀ n < 128, isIdentByte (UInt8.ofNat n) = true →
      isPrintable (Char.ofNat n) = true := by decide
  intro c mem
  obtain ⟨small, ident⟩ : c.toNat < 128 ∧ isIdentByte (UInt8.ofNat c.toNat) = true := by
    simpa [isIdentChar] using h c mem
  simpa using ascii c.toNat small ident

/-! ### Numbers -/

theorem toList_toString (n : Nat) : (toString n).toList = Nat.toDigits 10 n := by
  rw [Nat.toString_eq_ofList_toDigits, String.toList_ofList]

theorem isDigit_of_mem_toString {n : Nat} {c : Char} (mem : c ∈ (toString n).toList) :
    c.isDigit = true := by
  rw [toList_toString] at mem
  exact Nat.isDigit_of_mem_toDigits (by decide) (by decide) mem

theorem isPrintable_of_isDigit {c : Char} (h : c.isDigit = true) : isPrintable c = true := by
  simp only [Char.isDigit, isPrintable, Bool.and_eq_true, decide_eq_true_eq] at h ⊢
  exact ⟨Nat.le_trans (by decide) h.1, Nat.le_trans h.2 (by decide)⟩

theorem printable_toString (n : Nat) : Printable (toString n) := fun _ mem =>
  isPrintable_of_isDigit (isDigit_of_mem_toString mem)

/-! ### Bytes of a name -/

theorem toList_loop (bytes : ByteArray) (i : Nat) (done : List UInt8) :
    ByteArray.toList.loop bytes i done = done.reverse ++ bytes.data.toList.drop i := by
  induction left : bytes.size - i generalizing i done with
  | zero =>
    have beyond : ¬i < bytes.size := by omega
    have all : bytes.data.toList.length ≤ i := Nat.le_of_not_lt beyond
    rw [ByteArray.toList.loop, if_neg beyond, List.drop_eq_nil_of_le all, List.append_nil]
  | succ left ih =>
    have inside : i < bytes.data.size := Nat.lt_of_sub_pos (by rw [ByteArray.size] at left; omega)
    have place : i < bytes.data.toList.length := inside
    have here : bytes.get! i = bytes.data.toList[i] := by
      rw [ByteArray.get!, getElem!_pos bytes.data i inside, Array.getElem_toList]
    rw [ByteArray.toList.loop, if_pos (show i < bytes.size from inside), ih (i + 1) _ (by omega), List.reverse_cons,
      List.append_assoc, List.drop_eq_getElem_cons place, here]
    rfl

theorem nameBytes_eq (name : String) :
    nameBytes name = name.toList.flatMap String.utf8EncodeChar := by
  have bytes : name.toUTF8.data.toList = name.toList.flatMap String.utf8EncodeChar := by
    rw [String.toUTF8_eq_toByteArray, ← String.utf8Encode_toList, List.utf8Encode,
      List.toList_data_toByteArray]
  rw [nameBytes, ByteArray.toList, toList_loop, List.reverse_nil, List.nil_append, List.drop_zero,
    bytes]

theorem nameBytes_append (s t : String) : nameBytes (s ++ t) = nameBytes s ++ nameBytes t := by
  rw [nameBytes_eq, nameBytes_eq, nameBytes_eq, String.toList_append, List.flatMap_append]

theorem nameBytes_injective {s t : String} (same : nameBytes s = nameBytes t) : s = t := by
  rw [nameBytes_eq, nameBytes_eq] at same
  rw [← String.toByteArray_inj, ← String.utf8Encode_toList, ← String.utf8Encode_toList,
    List.utf8Encode, List.utf8Encode, same]

theorem utf8EncodeChar_of_ascii {c : Char} (h : ∀ b ∈ String.utf8EncodeChar c, b < 128) :
    c.toNat < 128 ∧ String.utf8EncodeChar c = [UInt8.ofNat c.toNat] := by
  have high {n : Nat} (lower : 192 ≤ n) (upper : n < 256) : ¬UInt8.ofNat n < 128 := by
    rw [UInt8.lt_iff_toNat_lt, UInt8.toNat_ofNat_of_lt' upper]
    exact Nat.not_lt.mpr (Nat.le_trans (by decide) lower)
  unfold String.utf8EncodeChar at h ⊢
  dsimp only at h ⊢
  split at h
  · rename_i small
    rw [if_pos small]
    exact ⟨Nat.lt_succ_of_le small, rfl⟩
  · exfalso
    split at h
    · exact high (by omega) (by omega) (h _ List.mem_cons_self)
    · split at h
      · exact high (by omega) (by omega) (h _ List.mem_cons_self)
      · exact high (by omega) (by omega) (h _ List.mem_cons_self)

theorem isIdentByte_lt {b : UInt8} (h : isIdentByte b = true) : b < 128 := by
  have all : ∀ n < 256, isIdentByte (UInt8.ofNat n) = true → UInt8.ofNat n < 128 := by
    decide +kernel
  simpa using all b.toNat b.toNat_lt (by simpa using h)

theorem isIdentChar_of_bare {name : String} (bare : isBareIdent (nameBytes name) = true) :
    ∀ c ∈ name.toList, isIdentChar c = true := by
  have all : ∀ b ∈ nameBytes name, isIdentByte b = true := by
    unfold isBareIdent at bare
    split at bare
    · cases bare
    · exact List.all_eq_true.mp (Bool.and_eq_true_iff.mp bare).2
  intro c mem
  have inside : ∀ b ∈ String.utf8EncodeChar c, isIdentByte b = true := fun b here =>
    all b (nameBytes_eq name ▸ List.mem_flatMap.mpr ⟨c, mem, here⟩)
  obtain ⟨small, one⟩ := utf8EncodeChar_of_ascii fun b here => isIdentByte_lt (inside b here)
  have ident : isIdentByte (UInt8.ofNat c.toNat) = true := inside _ (one ▸ List.mem_singleton_self _)
  simp [isIdentChar, small, ident]

/-! ### Escaped bytes -/

theorem isPrintable_of_mem_escapeByte {b : UInt8} {c : Char} (mem : c ∈ escapeByte b) :
    isPrintable c = true ∧ c ≠ '"' := by
  have all : ∀ n < 256, (escapeByte (UInt8.ofNat n)).all (fun c => isPrintable c && c != '"') = true := by
    decide +kernel
  have good := List.all_eq_true.mp (all b.toNat b.toNat_lt) c (by simpa using mem)
  simpa using good

theorem isPrintable_of_mem_escapeBytes {bytes : List UInt8} {c : Char}
    (mem : c ∈ escapeBytes bytes) : isPrintable c = true ∧ c ≠ '"' := by
  obtain ⟨b, _, here⟩ := List.mem_flatMap.mp mem
  exact isPrintable_of_mem_escapeByte here

theorem printable_quotedBytes (bytes : List UInt8) : Printable (quotedBytes bytes) := by
  intro c mem
  rw [quotedBytes, String.toList_ofList] at mem
  exact (isPrintable_of_mem_escapeBytes mem).1

theorem printable_ident (name : String) : Printable (ident name) := by
  unfold ident
  split
  · rename_i bare
    exact printable_of_identChars (isIdentChar_of_bare bare)
  · intro c mem
    rw [String.toList_ofList, List.cons_append, List.mem_cons, List.mem_append,
      List.mem_singleton] at mem
    rcases mem with rfl | escaped | rfl
    · decide
    · exact (isPrintable_of_mem_escapeBytes escaped).1
    · decide

end ModuleIR.Text
