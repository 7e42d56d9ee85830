import ModuleIR.Proofs.Text.Bytes

set_option autoImplicit false

/-!
# Reading texts back

Two texts that are alike and start with pieces of a kind start with the same piece when it is clear
where a piece ends: at the first character that the kind does not have, at the closing quote, or at
the first blank that is not followed by a character that stands behind a blank inside a piece. So the
name that is written at the start of a text is read back, whatever follows it.
-/
namespace ModuleIR.Text

variable {p : Char → Bool} {a a' s s' : List Char}

/-! ### Up to the first character of another kind -/

def Stops (p : Char → Bool) (s : List Char) : Prop := ∀ c ∈ s.head?, p c = false

@[simp] theorem stops_nil : Stops p [] := by simp [Stops]

@[simp] theorem stops_cons {c : Char} : Stops p (c :: s) ↔ p c = false := by simp [Stops]

theorem takeWhile_append_of_stops (all : ∀ c ∈ a, p c = true) (stops : Stops p s) :
    (a ++ s).takeWhile p = a := by
  have none : s.takeWhile p = [] := by
    cases s with
    | nil => rfl
    | cons c rest => exact List.takeWhile_cons_of_neg (by simp [stops_cons.mp stops])
  rw [List.takeWhile_append_of_pos all, none, List.append_nil]

theorem append_inj_of_stops (all : ∀ c ∈ a, p c = true) (all' : ∀ c ∈ a', p c = true)
    (stops : Stops p s) (stops' : Stops p s') (same : a ++ s = a' ++ s') : a = a' ∧ s = s' := by
  obtain rfl : a = a' := by
    rw [← takeWhile_append_of_stops all stops, same, takeWhile_append_of_stops all' stops']
  exact ⟨rfl, List.append_cancel_left same⟩

/-- Numerals are read back up to the first character that is no digit. -/
theorem toDigits_inj_of_stops {n n' : Nat} (stops : Stops Char.isDigit s)
    (stops' : Stops Char.isDigit s') (same : Nat.toDigits 10 n ++ s = Nat.toDigits 10 n' ++ s') :
    n = n' ∧ s = s' := by
  have digits (k : Nat) : ∀ c ∈ Nat.toDigits 10 k, c.isDigit = true := fun c mem =>
    Nat.isDigit_of_mem_toDigits (by decide) (by decide) mem
  obtain ⟨same, rest⟩ := append_inj_of_stops (digits n) (digits n') stops stops' same
  refine ⟨?_, rest⟩
  rw [← Nat.ofDigitChars_ten_toDigits (n := n), same, Nat.ofDigitChars_ten_toDigits]

theorem head_toString (n : Nat) (s : List Char) :
    ∃ c rest, (toString n).toList ++ s = c :: rest ∧ c.isDigit = true := by
  cases content : (toString n).toList with
  | nil => exact absurd ((toList_toString n).symm.trans content) Nat.toDigits_ne_nil
  | cons c rest => exact ⟨c, rest ++ s, rfl, isDigit_of_mem_toString (content ▸ List.mem_cons_self)⟩

/-! ### Up to a blank -/

/-- Every blank is followed by a character of the kind. -/
def Spaced (p : Char → Bool) : List Char → Prop
  | [] => True
  | c :: rest => (c = ' ' → rest.head?.any p = true) ∧ Spaced p rest

instance Spaced.decidable : ∀ a, Decidable (Spaced p a)
  | [] => isTrue trivial
  | c :: rest =>
    have := Spaced.decidable rest
    inferInstanceAs (Decidable ((c = ' ' → rest.head?.any p = true) ∧ Spaced p rest))

theorem Spaced.append (h : Spaced p a) (h' : Spaced p a') : Spaced p (a ++ a') := by
  induction a with
  | nil => exact h'
  | cons c rest ih =>
    refine ⟨fun blank => ?_, ih h.2⟩
    have behind := h.1 blank
    cases rest with
    | nil => cases behind
    | cons next rest => exact behind

theorem spaced_of_not_mem (none : ' ' ∉ a) : Spaced p a := by
  induction a with
  | nil => trivial
  | cons c rest ih =>
    rw [List.mem_cons, not_or] at none
    exact ⟨fun blank => absurd blank.symm none.1, ih none.2⟩

theorem blank_inj_of_spaced {c c' : Char} (h : Spaced p a) (h' : Spaced p a') (other : p c = false)
    (other' : p c' = false) (same : a ++ ' ' :: c :: s = a' ++ ' ' :: c' :: s') :
    a = a' ∧ c = c' ∧ s = s' := by
  have short {b t t' : List Char} {d d' : Char} (spaced : Spaced p b) (stop : p d = false)
      (long : ' ' :: d :: t = b ++ ' ' :: d' :: t') : b = [] := by
    cases b with
    | nil => rfl
    | cons first rest =>
      obtain ⟨blank, behind⟩ := List.cons.inj long
      have holds := spaced.1 blank.symm
      cases rest with
      | nil => cases holds
      | cons second rest =>
        have holds : p second = true := holds
        rw [← (List.cons.inj behind).1, stop] at holds
        cases holds
  induction a generalizing a' with
  | nil =>
    obtain rfl := short h' other same
    simpa using same
  | cons first rest ih =>
    cases a' with
    | nil => cases short h other' same.symm
    | cons first' rest' =>
      obtain ⟨rfl, behind⟩ := List.cons.inj same
      obtain ⟨rfl, others⟩ := ih h.2 h'.2 behind
      exact ⟨rfl, others⟩

/-! ### Escaped bytes and names -/

theorem hexValueUpper?_hexDigitUpper :
    ∀ n < 16, hexValueUpper? (hexDigitUpper n) = some n := by decide

theorem unescape_escapeByte (b : UInt8) (rest : List Char) :
    unescape (escapeByte b ++ rest) = (unescape rest).map (b :: ·) := by
  have small := b.toNat_lt
  unfold escapeByte
  split
  · rename_i plain
    have written : ∀ n < 256, isPlainByte (UInt8.ofNat n) = true →
        Char.ofNat n ≠ '\\' ∧ (Char.ofNat n).toNat = n := by decide +kernel
    obtain ⟨other, code⟩ := written b.toNat small (by simpa using plain)
    rw [List.singleton_append, unescape]
    · simp [code, plain, small]
    · exact fun h l rest' escape => absurd escape other
  · have parts : UInt8.ofNat (b.toNat / 16 * 16 + b.toNat % 16) = b := by
      rw [Nat.div_add_mod', UInt8.ofNat_toNat]
    simp only [List.cons_append, List.nil_append, unescape,
      hexValueUpper?_hexDigitUpper _ (by omega : b.toNat / 16 < 16),
      hexValueUpper?_hexDigitUpper _ (by omega : b.toNat % 16 < 16)]
    cases unescape rest with
    | none => rfl
    | some bytes => exact congrArg (fun read => some (read :: bytes)) parts

theorem unescape_escapeBytes (bytes : List UInt8) : unescape (escapeBytes bytes) = some bytes := by
  induction bytes with
  | nil => rfl
  | cons b rest ih =>
    rw [escapeBytes, List.flatMap_cons, unescape_escapeByte]
    exact congrArg (Option.map _) ih

theorem escapeBytes_inj_of_quote {bytes bytes' : List UInt8}
    (same : escapeBytes bytes ++ '"' :: s = escapeBytes bytes' ++ '"' :: s') :
    bytes = bytes' ∧ s = s' := by
  have inside (bytes : List UInt8) : ∀ c ∈ escapeBytes bytes, (c != '"') = true := fun c mem =>
    bne_iff_ne.mpr (isPrintable_of_mem_escapeBytes mem).2
  obtain ⟨same, rest⟩ := append_inj_of_stops (inside bytes) (inside bytes')
    (stops_cons.mpr (by decide)) (stops_cons.mpr (by decide)) same
  refine ⟨Option.some.inj ?_, (List.cons.inj rest).2⟩
  rw [← unescape_escapeBytes bytes, same, unescape_escapeBytes]

theorem first_of_bare {name : String} (bare : isBareIdent (nameBytes name) = true) :
    ∃ c rest, name.toList = c :: rest ∧ isIdentChar c = true ∧ c.isDigit = false := by
  have inside := isIdentChar_of_bare bare
  rw [nameBytes_eq] at bare
  cases content : name.toList with
  | nil =>
    rw [content] at bare
    cases bare
  | cons c rest =>
    rw [content, List.forall_mem_cons] at inside
    refine ⟨c, rest, rfl, inside.1, ?_⟩
    have one : ∀ n < 128, String.utf8EncodeChar (Char.ofNat n) = [UInt8.ofNat n] ∧
        isDigitByte (UInt8.ofNat n) = (Char.ofNat n).isDigit := by decide
    obtain ⟨small, _⟩ : c.toNat < 128 ∧ isIdentByte (UInt8.ofNat c.toNat) = true := by
      simpa [isIdentChar] using inside.1
    obtain ⟨bytes, digit⟩ := one c.toNat small
    rw [Char.ofNat_toNat] at bytes digit
    rw [content, List.flatMap_cons, bytes, List.singleton_append, isBareIdent] at bare
    simpa [digit] using (Bool.and_eq_true_iff.mp bare).1

theorem toList_ident (name : String) : (ident name).toList =
    if isBareIdent (nameBytes name) then name.toList
    else '"' :: escapeBytes (nameBytes name) ++ ['"'] := by
  unfold ident
  split
  · rfl
  · exact String.toList_ofList

/-- A written name does not start like a numeral. -/
theorem head_ident (name : String) (s : List Char) :
    ∃ c rest, (ident name).toList ++ s = c :: rest ∧ c.isDigit = false := by
  rw [toList_ident]
  split
  · rename_i bare
    obtain ⟨c, rest, content, _, other⟩ := first_of_bare bare
    exact ⟨c, rest ++ s, by rw [content]; rfl, other⟩
  · exact ⟨'"', _, rfl, by decide⟩

/-- Names are read back up to the first character that is not one of identifiers. -/
theorem ident_inj_of_stops {name name' : String} (stops : Stops isIdentChar s)
    (stops' : Stops isIdentChar s') (same : (ident name).toList ++ s = (ident name').toList ++ s') :
    name = name' ∧ s = s' := by
  have mixed {name : String} {t t' : List Char} (bare : isBareIdent (nameBytes name) = true)
      (same : name.toList ++ t = '"' :: t') : False := by
    obtain ⟨c, rest, content, letter, _⟩ := first_of_bare bare
    rw [content] at same
    obtain rfl : c = '"' := (List.cons.inj same).1
    exact absurd letter (by decide)
  rw [toList_ident, toList_ident] at same
  by_cases bare : isBareIdent (nameBytes name) = true <;>
    by_cases bare' : isBareIdent (nameBytes name') = true
  · rw [if_pos bare, if_pos bare'] at same
    obtain ⟨same, rest⟩ := append_inj_of_stops (isIdentChar_of_bare bare)
      (isIdentChar_of_bare bare') stops stops' same
    exact ⟨String.toList_inj.mp same, rest⟩
  · rw [if_pos bare, if_neg bare'] at same
    exact (mixed bare same).elim
  · rw [if_neg bare, if_pos bare'] at same
    exact (mixed bare' same.symm).elim
  · rw [if_neg bare, if_neg bare', List.cons_append, List.cons_append, List.append_assoc,
      List.append_assoc] at same
    obtain ⟨same, rest⟩ := escapeBytes_inj_of_quote (List.cons.inj same).2
    exact ⟨nameBytes_injective same, rest⟩

end ModuleIR.Text
