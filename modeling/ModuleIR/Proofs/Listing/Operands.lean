import ModuleIR.Proofs.Listing.Lines
import ModuleIR.Proofs.Listing.Resolution
import ModuleIR.Proofs.Listing.TypeTexts
import ModuleIR.Proofs.Names.Steps
import ModuleIR.Proofs.Steps.Elementary

set_option autoImplicit false

/-!
# Operands that read alike

An operand is printed as its type, a blank and a reference. The reference starts with a character
that does not follow a blank inside a type, so the type is told from the reference, and its first
character tells what kind of value it is. Literals, names and numbers end where a comma, a parenthesis
or nothing follows, and pointer arithmetic ends with its own parenthesis. So operands that are printed
alike in one function are one value, when names are unique in their scopes and constants are unique.
-/
namespace ModuleIR

open Text

/-! ### What follows an operand -/

/-- A comma, a closing parenthesis or nothing comes next. -/
def Ends (s : List Char) : Prop := Stops (fun c => c != ',' && c != ')') s

theorem Ends.stops {p : Char → Bool} {s : List Char} (ends : Ends s) (comma : p ',' = false)
    (paren : p ')' = false) : Stops p s := by
  cases s with
  | nil => exact stops_nil
  | cons c rest =>
    have mark := stops_cons.mp ends
    rw [Bool.and_eq_false_iff, bne_eq_false_iff_eq, bne_eq_false_iff_eq] at mark
    rcases mark with rfl | rfl
    · exact stops_cons.mpr comma
    · exact stops_cons.mpr paren

/-! ### Literals -/

def isIntChar (c : Char) : Bool := c.isAlphanum || c == '-'

theorem isIntChar_of_mem {n : WideInt} {c : Char} (mem : c ∈ (integerText n).toList) :
    isIntChar c = true := by
  unfold integerText at mem
  split at mem
  · have all : ("true".toList ++ "false".toList).all isIntChar = true := by decide
    have letters := List.all_eq_true.mp all
    split at mem
    · exact letters c (List.mem_append_right _ mem)
    · exact letters c (List.mem_append_left _ mem)
  · rcases WideInt.mem_decimal mem with rfl | digit
    · decide
    · simp [isIntChar, Char.isAlphanum, digit]

theorem integerText_injective {n n' : WideInt} (h : n.Canonical) (h' : n'.Canonical)
    (bits : n.bits = n'.bits) (same : integerText n = integerText n') : n = n' := by
  unfold integerText at same
  rw [← bits] at same
  by_cases one : n.bits = 1
  · rw [if_pos one, if_pos one] at same
    have zero : n.isZero = n'.isZero := by
      cases zero : n.isZero <;> cases zero' : n'.isZero
      · rfl
      · rw [zero, zero'] at same
        exact absurd same (by decide)
      · rw [zero, zero'] at same
        exact absurd same (by decide)
      · rfl
    have bound := h.bound
    have bound' := h'.bound
    have values := Bool.eq_iff_iff.mp zero
    rw [WideInt.isZero_iff, WideInt.isZero_iff] at values
    rw [← bits, one] at bound'
    rw [one] at bound
    exact h.ext h' bits (by omega)
  · rw [if_neg one, if_neg one] at same
    exact WideInt.decimal_injective h h' bits same

theorem integerText_inj {n n' : WideInt} (h : n.Canonical) (h' : n'.Canonical)
    (bits : n.bits = n'.bits) {s s' : List Char} (ends : Ends s) (ends' : Ends s')
    (same : (integerText n).toList ++ s = (integerText n').toList ++ s') : n = n' ∧ s = s' := by
  obtain ⟨texts, rests⟩ := append_inj_of_stops (fun _ => isIntChar_of_mem)
    (fun _ => isIntChar_of_mem) (ends.stops (by decide) (by decide))
    (ends'.stops (by decide) (by decide)) same
  exact ⟨integerText_injective h h' bits (String.toList_inj.mp texts), rests⟩

theorem toList_bytesText (bytes : List UInt8) : (bytesText bytes).toList =
    if bytes.all (· == 0) then "zeroinitializer".toList
    else 'c' :: '"' :: (escapeBytes bytes ++ ['"']) := by
  unfold bytesText
  split
  · rfl
  · simp [quotedBytes]

theorem bytesText_inj {bytes bytes' : List UInt8} (length : bytes.length = bytes'.length)
    {s s' : List Char} (same : (bytesText bytes).toList ++ s = (bytesText bytes').toList ++ s') :
    bytes = bytes' ∧ s = s' := by
  have zeros {bytes : List UInt8} (all : bytes.all (· == 0) = true) :
      bytes = List.replicate bytes.length 0 :=
    List.eq_replicate_of_mem fun b mem => by simpa using List.all_eq_true.mp all b mem
  have mixed {t t' : List Char} : "zeroinitializer".toList ++ t ≠ 'c' :: t' := fun same =>
    absurd (List.cons.inj same).1 (by decide)
  rw [toList_bytesText, toList_bytesText] at same
  by_cases all : bytes.all (· == 0) = true <;> by_cases all' : bytes'.all (· == 0) = true
  · rw [if_pos all, if_pos all'] at same
    exact ⟨by rw [zeros all, zeros all', length], List.append_cancel_left same⟩
  · rw [if_pos all, if_neg all'] at same
    exact absurd same mixed
  · rw [if_neg all, if_pos all'] at same
    exact absurd same.symm mixed
  · rw [if_neg all, if_neg all'] at same
    simp only [List.cons_append, List.append_assoc, List.cons.injEq, true_and] at same
    exact escapeBytes_inj_of_quote same

namespace Listing

open Context

/-! ### Names and numbers -/

section Referents

variable {α : Type} [DecidableEq α] {as : List α} {a a' : α} {name name' : Option String}

/-- What is referred to by its name, or by its place among the unnamed. -/
theorem referent_eq_ok (listed : name = none → a ∈ as) {t : String}
    (content : (referent name (as.idxOf? a)).content = .ok t) :
    (∃ n, name = some n ∧ t = ident n) ∨ (name = none ∧ ∃ k : Nat, as[k]? = some a ∧ t = toString k) := by
  cases name with
  | some n => exact .inl ⟨n, rfl, (Except.ok.inj content).symm⟩
  | none =>
    cases place : as.idxOf? a with
    | none => exact absurd place (idxOf?_ne_none.mpr (listed rfl))
    | some k =>
      rw [place] at content
      obtain ⟨bound, same, _⟩ := List.idxOf?_eq_some_iff.mp place
      exact .inr ⟨rfl, k, by rw [List.getElem?_eq_getElem bound, same], (Except.ok.inj content).symm⟩

theorem referent_inj (listed : name = none → a ∈ as) (listed' : name' = none → a' ∈ as) {t t' : String}
    (content : (referent name (as.idxOf? a)).content = .ok t)
    (content' : (referent name' (as.idxOf? a')).content = .ok t') {s s' : List Char}
    (ends : Ends s) (ends' : Ends s') (same : t.toList ++ s = t'.toList ++ s') :
    ((∃ n, name = some n ∧ name' = some n) ∨ a = a') ∧ s = s' := by
  have mixed {n : String} {k : Nat} {s s' : List Char} :
      (ident n).toList ++ s ≠ (toString k).toList ++ s' := by
    obtain ⟨c, _, start, other⟩ := head_ident n s
    obtain ⟨d, _, start', digit⟩ := head_toString k s'
    rw [start, start']
    intro same
    rw [(List.cons.inj same).1, digit] at other
    cases other
  rcases referent_eq_ok listed content with ⟨n, named, rfl⟩ | ⟨_, k, place, rfl⟩ <;>
    rcases referent_eq_ok listed' content' with ⟨n', named', rfl⟩ | ⟨_, k', place', rfl⟩
  · obtain ⟨rfl, rests⟩ := ident_inj_of_stops (ends.stops (by decide) (by decide))
      (ends'.stops (by decide) (by decide)) same
    exact ⟨.inl ⟨n, named, named'⟩, rests⟩
  · exact absurd same mixed
  · exact absurd same.symm mixed
  · rw [toList_toString, toList_toString] at same
    obtain ⟨rfl, rests⟩ := toDigits_inj_of_stops (ends.stops (by decide) (by decide))
      (ends'.stops (by decide) (by decide)) same
    exact ⟨.inr (Option.some.inj (place.symm.trans place')), rests⟩

end Referents

/-! ### References -/

variable {ctx : Context} {slots : Slots} {depth : Nat} {v : ValueRef} {r : ValueRecord} {text : String}

def typed (ctx : Context) (slots : Slots) (depth : Nat) (v : ValueRef) : Listing :=
  reading (ctx.describeTypeOf v) fun type => .text (type ++ " ") :: refWithin ctx slots depth v

theorem render_typed (done : (typed ctx slots depth v).render = .ok text) :
    ∃ r reference, ctx.value v = .ok r ∧ (refWithin ctx slots depth v).render = .ok reference ∧
      text.toList = (ctx.typeText r.type).toList ++ ' ' :: reference.toList := by
  obtain ⟨type, typed, done⟩ := render_reading_eq_ok.mp done
  obtain ⟨reference, rendered, rfl⟩ := render_text_eq_ok.mp done
  obtain ⟨r, read, written⟩ := describeTypeOf_eq_ok.mp typed
  exact ⟨r, reference, read, rendered, by simp [typeText_of_describeType written]⟩

theorem render_lone {t : String} (done : render [.text t] = .ok text) : text = t := by
  obtain ⟨_, ending, rfl⟩ := render_text_eq_ok.mp done
  obtain rfl := Except.ok.inj ending
  exact String.append_empty

theorem render_marked {mark : String} {piece : Piece}
    (done : render [.text mark, piece] = .ok text) :
    ∃ t, piece.content = .ok t ∧ text = mark ++ t := by
  obtain ⟨_, behind, rfl⟩ := render_text_eq_ok.mp done
  rw [render_cons] at behind
  obtain ⟨t, content, ending⟩ := Checked.bind_eq_ok.mp behind
  obtain rfl := Except.ok.inj ending
  exact ⟨t, content, by rw [String.append_empty]⟩

def closing : List String → List Char
  | [] => [')']
  | t :: rest => ',' :: ' ' :: (t.toList ++ closing rest)

theorem ends_closing (ts : List String) (s : List Char) : Ends (closing ts ++ s) := by
  cases ts with
  | nil => exact stops_cons.mpr (by decide)
  | cons t rest => exact stops_cons.mpr (by decide)

theorem render_closing {us : List ValueRef}
    (done : render ((us.flatMap fun u => .text ", " :: typed ctx slots depth u) ++ [.text ")"]) =
      .ok text) :
    ∃ ts, List.Forall₂ (fun u t => (typed ctx slots depth u).render = .ok t) us ts ∧
      text.toList = closing ts := by
  induction us generalizing text with
  | nil =>
    rw [render_lone done]
    exact ⟨[], .nil, by rfl⟩
  | cons u rest ih =>
    rw [List.flatMap_cons, List.append_assoc, List.cons_append] at done
    obtain ⟨_, shown, rfl⟩ := render_text_eq_ok.mp done
    obtain ⟨t, behind, first, others, rfl⟩ := render_append_eq_ok.mp shown
    obtain ⟨ts, each, same⟩ := ih others
    refine ⟨t :: ts, .cons first each, ?_⟩
    rw [closing, ← same]
    simp

theorem render_elementPtr {e : ElementPtrRecord} (read : ctx.value v = .ok r)
    (kind : r.kind = .elementPtr e) (done : (refWithin ctx slots (depth + 1) v).render = .ok text) :
    ∃ base indices, (typed ctx slots depth e.base).render = .ok base ∧
      List.Forall₂ (fun u t => (typed ctx slots depth u).render = .ok t) e.indices indices ∧
      text.toList = "getelementptr ".toList ++ ((if e.inBounds then "inbounds " else "").toList ++
        '(' :: ((ctx.typeText e.sourceType).toList ++ ',' :: ' ' :: (base.toList ++ closing indices))) := by
  rw [refWithin] at done
  obtain ⟨r', read', shown⟩ := render_reading_eq_ok.mp done
  obtain rfl := Checked.unique read read'
  simp only [kind, List.cons_append, List.append_assoc] at shown
  obtain ⟨source, written, shown⟩ := render_reading_eq_ok.mp shown
  obtain ⟨_, behind, rfl⟩ := render_text_eq_ok.mp shown
  obtain ⟨base, rest, first, others, rfl⟩ := render_append_eq_ok.mp behind
  obtain ⟨indices, each, same⟩ := render_closing others
  refine ⟨base, indices, first, each, ?_⟩
  rw [← same, typeText_of_describeType written]
  simp

/-! ### The first character of a reference -/

def headClass (c : Char) : Nat :=
  if c = '-' ∨ c = 't' ∨ c = 'f' ∨ c.isDigit then 0 else if c = 'z' ∨ c = 'c' then 1
  else if c = 'g' then 2 else if c = '@' then 3 else if c = '%' then 4 else 5

def kindClass : ValueKind → Nat
  | .int _ => 0
  | .bytes _ => 1
  | .elementPtr _ => 2
  | .global _ | .function _ => 3
  | .argument _ | .instruction _ => 4
  | .erased => 5

theorem kindClass_lt {k : ValueKind} (live : k ≠ .erased) : kindClass k < 5 := by
  cases k with
  | erased => exact absurd rfl live
  | _ => simp [kindClass]

/-- No reference starts with a character that follows a blank inside a type. -/
theorem headClass_of_isTypeChar {c : Char} (h : isTypeChar c = true) : headClass c = 5 := by
  have all : ['v', 'l', 'i', '[', 'x', 'a', '(', '.'].all (headClass · == 5) = true := by decide
  exact beq_iff_eq.mp (List.all_eq_true.mp all c (of_decide_eq_true h))

theorem first_of_integerText {n : WideInt} (h : n.Canonical) :
    ∃ c rest, (integerText n).toList = c :: rest ∧ headClass c = 0 := by
  unfold integerText
  split
  · split
    · exact ⟨'f', _, rfl, by decide⟩
    · exact ⟨'t', _, rfl, by decide⟩
  · obtain ⟨c, rest, same, start⟩ := WideInt.first_of_decimal h
    refine ⟨c, rest, same, if_pos ?_⟩
    rcases start with rfl | digit
    · exact .inl rfl
    · exact .inr (.inr (.inr digit))

/-! ### Kinds from their classes -/

theorem int_of_kindClass {k : ValueKind} (h : kindClass k = 0) : ∃ n, k = .int n := by
  cases k with
  | int n => exact ⟨n, rfl⟩
  | _ => simp [kindClass] at h

theorem bytes_of_kindClass {k : ValueKind} (h : kindClass k = 1) : ∃ bytes, k = .bytes bytes := by
  cases k with
  | bytes bytes => exact ⟨bytes, rfl⟩
  | _ => simp [kindClass] at h

theorem elementPtr_of_kindClass {k : ValueKind} (h : kindClass k = 2) : ∃ e, k = .elementPtr e := by
  cases k with
  | elementPtr e => exact ⟨e, rfl⟩
  | _ => simp [kindClass] at h

theorem render_int (read : ctx.value v = .ok r) {n : WideInt} (kind : r.kind = .int n)
    (done : (refWithin ctx slots (depth + 1) v).render = .ok text) : text = integerText n := by
  rw [refWithin] at done
  obtain ⟨r', read', shown⟩ := render_reading_eq_ok.mp done
  obtain rfl := Checked.unique read read'
  simp only [kind] at shown
  exact render_lone shown

theorem render_bytes (read : ctx.value v = .ok r) {bytes : List UInt8} (kind : r.kind = .bytes bytes)
    (done : (refWithin ctx slots (depth + 1) v).render = .ok text) : text = bytesText bytes := by
  rw [refWithin] at done
  obtain ⟨r', read', shown⟩ := render_reading_eq_ok.mp done
  obtain rfl := Checked.unique read read'
  simp only [kind] at shown
  exact render_lone shown

theorem render_global (read : ctx.value v = .ok r) (marked : kindClass r.kind = 3)
    (done : (refWithin ctx slots (depth + 1) v).render = .ok text) :
    ∃ t, (referent r.name (slots.globals.idxOf? v)).content = .ok t ∧ text = "@" ++ t := by
  rw [refWithin] at done
  obtain ⟨r', read', shown⟩ := render_reading_eq_ok.mp done
  obtain rfl := Checked.unique read read'
  cases kind : r.kind with
  | global | function =>
    simp only [kind] at shown
    exact render_marked shown
  | _ => simp [kind, kindClass] at marked

theorem render_local (read : ctx.value v = .ok r) (marked : kindClass r.kind = 4)
    (done : (refWithin ctx slots (depth + 1) v).render = .ok text) :
    ∃ t, (referent r.name (slots.locals.idxOf? (.value v))).content = .ok t ∧ text = "%" ++ t := by
  rw [refWithin] at done
  obtain ⟨r', read', shown⟩ := render_reading_eq_ok.mp done
  obtain rfl := Checked.unique read read'
  cases kind : r.kind with
  | argument | instruction =>
    simp only [kind] at shown
    exact render_marked shown
  | _ => simp [kind, kindClass] at marked

theorem first_of_reference (read : ctx.value v = .ok r)
    (built : ∀ n, r.kind = .int n → n.Canonical)
    (done : (refWithin ctx slots depth v).render = .ok text) :
    ∃ c rest, text.toList = c :: rest ∧ headClass c = kindClass r.kind := by
  cases depth with
  | zero => cases done
  | succ depth =>
    cases kind : r.kind with
    | int n =>
      rw [render_int read kind done]
      exact first_of_integerText (built n kind)
    | bytes bytes =>
      rw [render_bytes read kind done, toList_bytesText]
      split
      · exact ⟨'z', _, rfl, (by decide : headClass 'z' = 1)⟩
      · exact ⟨'c', _, rfl, (by decide : headClass 'c' = 1)⟩
    | elementPtr e =>
      obtain ⟨_, _, _, _, same⟩ := render_elementPtr read kind done
      exact ⟨'g', _, same, (by decide : headClass 'g' = 2)⟩
    | global | function =>
      obtain ⟨t, _, rfl⟩ := render_global read (by rw [kind]; rfl) done
      exact ⟨'@', t.toList, by simp, (by decide : headClass '@' = 3)⟩
    | argument | instruction =>
      obtain ⟨t, _, rfl⟩ := render_local read (by rw [kind]; rfl) done
      exact ⟨'%', t.toList, by simp, (by decide : headClass '%' = 4)⟩
    | erased => exact absurd kind (value_eq_ok.mp read).2.2

end Listing

/-! ### What may be written inside a function -/

namespace Context

variable {ctx : Context} {m : ModuleRef} {f : FunctionRef} {v : ValueRef} {r : ValueRecord}

/-- What is free, of the module or of the function, but no void instruction. -/
def Usable (ctx : Context) (m : ModuleRef) (f : FunctionRef) (v : ValueRef) : Prop :=
  ∃ anchor, ctx.Anchored v anchor ∧ anchor.Within m (some f) true ∧ ¬ctx.Mute v

theorem Named.unique (named : ctx.Named) (wf : ctx.WellFormed) {scope : NameScope} {s s' : Symbol}
    {n : String} (here : ctx.Names scope s n) (there : ctx.Names scope s' n) : s = s' := by
  obtain ⟨t, held⟩ := wf.table_of_scoped here.1
  have found := (named.mirrors scope t held n s).mpr ⟨here, not_false⟩
  rw [(named.mirrors scope t held n s').mpr ⟨there, not_false⟩] at found
  exact (Option.some.inj found).symm

theorem mute_instruction (mute : ctx.Mute v) (read : ctx.value v = .ok r) :
    ∃ i, r.kind = .instruction i := by
  obtain ⟨r', i, read', _, kind, _⟩ := mute
  obtain rfl := Checked.unique read read'
  exact ⟨i, kind⟩

/-- The base of pointer arithmetic that may be written may be written, and so may the indices. -/
theorem Usable.elementPtr (usable : ctx.Usable m f v) (wf : ctx.WellFormed)
    (read : ctx.value v = .ok r) {e : ElementPtrRecord} (kind : r.kind = .elementPtr e) :
    ctx.Usable m f e.base ∧ ∀ u ∈ e.indices, ctx.Usable m f u := by
  have sound := wf.elementPtrSound read kind
  obtain ⟨anchor, home, within, _⟩ := usable
  have content := (anchored_iff read).mp home
  rw [kind] at content
  obtain ⟨base, held, constant⟩ := sound.base
  refine ⟨⟨anchor, content, within, fun mute => ?_⟩, fun u mem => ?_⟩
  · obtain ⟨i, kind⟩ := mute_instruction mute held
    rw [kind] at constant
    cases constant
  · obtain ⟨index, n, held, kind⟩ := sound.indices u mem
    refine ⟨.free, .int held kind, trivial, fun mute => ?_⟩
    obtain ⟨i, kind'⟩ := mute_instruction mute held
    rw [kind] at kind'
    cases kind'

theorem Usable.scoped (usable : ctx.Usable m f v) (read : ctx.value v = .ok r) :
    (Listing.kindClass r.kind = 3 → ctx.Scoped (.module m) (.value v)) ∧
      (Listing.kindClass r.kind = 4 → ctx.Scoped (.function f) (.value v)) := by
  obtain ⟨anchor, home, within, _⟩ := usable
  have content := (anchored_iff read).mp home
  cases kind : r.kind with
  | global g =>
    rw [kind] at content
    obtain rfl : anchor = .module g.module := content
    obtain rfl : g.module = m := within
    refine ⟨fun _ => scoped_value.mpr (.inl ⟨g, global_eq_ok.mpr ⟨r, read, kind⟩, rfl⟩), ?_⟩
    simp [Listing.kindClass]
  | function fr =>
    rw [kind] at content
    obtain rfl : anchor = .module fr.module := content
    obtain rfl : fr.module = m := within
    refine ⟨fun _ => scoped_value.mpr (.inr (.inl ⟨fr, function_eq_ok.mpr ⟨r, read, kind⟩, rfl⟩)), ?_⟩
    simp [Listing.kindClass]
  | argument a =>
    rw [kind] at content
    obtain rfl : anchor = .function a.parent := content
    obtain rfl : f = a.parent := Option.some.inj within
    refine ⟨by simp [Listing.kindClass], fun _ => ?_⟩
    exact scoped_value.mpr (.inr (.inr (.inl ⟨a, argument_eq_ok.mpr ⟨r, read, kind⟩, rfl⟩)))
  | instruction i =>
    rw [kind] at content
    obtain ⟨br, held, rfl⟩ := content
    refine ⟨by simp [Listing.kindClass], fun _ => ?_⟩
    cases parent : br.parent with
    | none =>
      rw [parent] at within
      cases within
    | some g =>
      rw [parent] at within
      obtain rfl : f = g := Option.some.inj within
      exact scoped_value.mpr (.inr (.inr (.inr
        ⟨i, instruction_eq_ok.mpr ⟨r, read, kind⟩, br, f, held, parent, rfl⟩)))
  | int | bytes | elementPtr | erased => simp [Listing.kindClass]

end Context

namespace Listing

open Context

variable {ctx : Context} (wf : ctx.WellFormed) {m : ModuleRef} {mr : ModuleRecord}
  (live : ctx.module m = .ok mr) {globals : List ValueRef} (numbered : ctx.globalSlots m = .ok globals)
  {locals : List Symbol} {f : FunctionRef} {fr : FunctionRecord} (known : ctx.function f = .ok fr)
  (inside : fr.module = m) (counted : ctx.localSlots f = .ok locals)

include wf live numbered known inside counted in
theorem listed_of_usable {v : ValueRef} {r : ValueRecord} (usable : ctx.Usable m f v)
    (read : ctx.value v = .ok r) (unnamed : r.name = none) :
    (kindClass r.kind = 3 → v ∈ globals) ∧ (kindClass r.kind = 4 → .value v ∈ locals) := by
  obtain ⟨anchor, home, within, sounds⟩ := usable
  have resolved := (resolved_ref wf live numbered known inside counted home (inside ▸ within)).mpr sounds
  rw [ref, refWithin, resolved_reading] at resolved
  have shown := resolved r read
  cases kind : r.kind with
  | global | function =>
    simp only [kind, resolved_text, resolved_referent, resolved_nil, and_true] at shown
    exact ⟨fun _ => idxOf?_ne_none.mp (shown unnamed), by simp [kindClass]⟩
  | argument | instruction =>
    simp only [kind, resolved_text, resolved_referent, resolved_nil, and_true] at shown
    exact ⟨by simp [kindClass], fun _ => idxOf?_ne_none.mp (shown unnamed)⟩
  | int | bytes | elementPtr | erased => simp [kindClass]

/-! ### Operands that are printed alike -/

variable (named : ctx.Named)

include wf named in
/-- Symbols of one scope that are referred to alike, by name or by their place among the unnamed. -/
theorem symbol_inj {α : Type} [DecidableEq α] {as : List α} {spot : ValueRef → α}
    (injective : Function.Injective spot) {scope : NameScope} {v v' : ValueRef} {r r' : ValueRecord}
    (here : ctx.Scoped scope (.value v)) (there : ctx.Scoped scope (.value v'))
    (read : ctx.value v = .ok r) (read' : ctx.value v' = .ok r')
    (listed : r.name = none → spot v ∈ as) (listed' : r'.name = none → spot v' ∈ as) {t t' : String}
    (content : (referent r.name (as.idxOf? (spot v))).content = .ok t)
    (content' : (referent r'.name (as.idxOf? (spot v'))).content = .ok t') {s s' : List Char}
    (ends : Ends s) (ends' : Ends s') (same : t.toList ++ s = t'.toList ++ s') :
    v = v' ∧ s = s' := by
  obtain ⟨alike, rests⟩ := referent_inj listed listed' content content' ends ends' same
  refine ⟨?_, rests⟩
  rcases alike with ⟨n, name, name'⟩ | place
  · have names : ctx.Names scope (.value v) n := ⟨here, valueName_eq_ok.mpr ⟨r, read, name⟩⟩
    have names' : ctx.Names scope (.value v') n := ⟨there, valueName_eq_ok.mpr ⟨r', read', name'⟩⟩
    exact Symbol.value.inj (named.unique wf names names')
  · exact injective place

variable (made : ∀ v r, ctx.value v = .ok r → ctx.Suits r.type r.kind)
  (uniqued : ∀ v v' r r' key, ctx.value v = .ok r → ctx.value v' = .ok r' →
    r.kind.key? = some key → r'.kind.key? = some key → v = v')

/-- Operands of this depth that are printed alike are one. -/
def TellsApart (ctx : Context) (m : ModuleRef) (f : FunctionRef) (slots : Slots) (depth : Nat) : Prop :=
  ∀ depth' v v' a a' s s', ctx.Usable m f v → ctx.Usable m f v' →
    (typed ctx slots depth v).render = .ok a → (typed ctx slots depth' v').render = .ok a' →
      Ends s → Ends s' → a.toList ++ s = a'.toList ++ s' → v = v' ∧ s = s'

theorem closing_inj {slots : Slots} {depth depth' : Nat} (tells : TellsApart ctx m f slots depth)
    {us us' : List ValueRef} (usable : ∀ u ∈ us, ctx.Usable m f u)
    (usable' : ∀ u ∈ us', ctx.Usable m f u) {ts ts' : List String}
    (each : List.Forall₂ (fun u t => (typed ctx slots depth u).render = .ok t) us ts)
    (each' : List.Forall₂ (fun u t => (typed ctx slots depth' u).render = .ok t) us' ts')
    {s s' : List Char} (same : closing ts ++ s = closing ts' ++ s') : us = us' ∧ s = s' := by
  induction each generalizing us' ts' with
  | nil =>
    cases each' with
    | nil => exact ⟨rfl, (List.cons.inj same).2⟩
    | cons => exact absurd (List.cons.inj same).1 (by decide)
  | @cons u t us ts first others ih =>
    cases each' with
    | nil => exact absurd (List.cons.inj same).1 (by decide)
    | @cons u' t' us' ts' first' others' =>
      rw [List.forall_mem_cons] at usable usable'
      simp only [closing, List.cons_append, List.append_assoc, List.cons.injEq, true_and] at same
      obtain ⟨rfl, behind⟩ := tells depth' u u' t t' _ _ usable.1 usable'.1 first first'
        (ends_closing ts s) (ends_closing ts' s') same
      obtain ⟨rfl, rests⟩ := ih usable.2 usable'.2 others' behind
      exact ⟨rfl, rests⟩

include made in
/-- The first blank that is followed by the start of a reference. -/
theorem split_reference {slots : Slots} {depth depth' : Nat} {v v' : ValueRef} {r r' : ValueRecord}
    (read : ctx.value v = .ok r) (read' : ctx.value v' = .ok r') {t t' : String}
    (done : (refWithin ctx slots depth v).render = .ok t)
    (done' : (refWithin ctx slots depth' v').render = .ok t') {a a' s s' : List Char}
    (spaced : Spaced isTypeChar a) (spaced' : Spaced isTypeChar a')
    (same : a ++ ' ' :: (t.toList ++ s) = a' ++ ' ' :: (t'.toList ++ s')) :
    a = a' ∧ kindClass r.kind = kindClass r'.kind ∧ t.toList ++ s = t'.toList ++ s' := by
  have built {v : ValueRef} {r : ValueRecord} (read : ctx.value v = .ok r) (n : WideInt)
      (kind : r.kind = .int n) : n.Canonical := by
    have suits := made v r read
    rw [kind] at suits
    exact suits.1.canonical
  have plain {c : Char} {k : ValueKind} (live : k ≠ .erased) (head : headClass c = kindClass k) :
      isTypeChar c = false := by
    cases other : isTypeChar c with
    | false => rfl
    | true =>
      have small := kindClass_lt live
      rw [← head, headClass_of_isTypeChar other] at small
      exact absurd small (by decide)
  obtain ⟨c, rest, first, head⟩ := first_of_reference read (built read) done
  obtain ⟨c', rest', first', head'⟩ := first_of_reference read' (built read') done'
  rw [first, first'] at same
  obtain ⟨rfl, rfl, behind⟩ := blank_inj_of_spaced spaced spaced'
    (plain (value_eq_ok.mp read).2.2 head) (plain (value_eq_ok.mp read').2.2 head') same
  rw [first, first']
  exact ⟨rfl, head.symm.trans head', congrArg (c :: ·) behind⟩

include wf made in
theorem elementPtr_inj {slots : Slots} {depth depth' : Nat}
    (tells : TellsApart ctx m f slots depth) {v v' : ValueRef} {r r' : ValueRecord}
    (usable : ctx.Usable m f v) (usable' : ctx.Usable m f v') (read : ctx.value v = .ok r)
    (read' : ctx.value v' = .ok r') {e e' : ElementPtrRecord} (kind : r.kind = .elementPtr e)
    (kind' : r'.kind = .elementPtr e') {t t' : String}
    (done : (refWithin ctx slots (depth + 1) v).render = .ok t)
    (done' : (refWithin ctx slots (depth' + 1) v').render = .ok t') {s s' : List Char}
    (same : t.toList ++ s = t'.toList ++ s') :
    r.kind.key? = r'.kind.key? ∧ s = s' := by
  obtain ⟨base, indices, first, others, text⟩ := render_elementPtr read kind done
  obtain ⟨base', indices', first', others', text'⟩ := render_elementPtr read' kind' done'
  obtain ⟨br, reference, held, referred, spelled⟩ := render_typed first
  obtain ⟨br', reference', held', referred', spelled'⟩ := render_typed first'
  rw [text, text'] at same
  simp only [List.cons_append, List.append_assoc] at same
  have marked := List.append_cancel_left same
  have bounds : e.inBounds = e'.inBounds := by
    cases here : e.inBounds <;> cases there : e'.inBounds
    · rfl
    · rw [here, there] at marked
      exact absurd (List.cons.inj marked).1 (by decide)
    · rw [here, there] at marked
      exact absurd (List.cons.inj marked).1 (by decide)
    · rfl
  rw [bounds] at marked
  have inside := (List.cons.inj (List.append_cancel_left marked)).2
  obtain ⟨basesUsable, indicesUsable⟩ := usable.elementPtr wf read kind
  obtain ⟨basesUsable', indicesUsable'⟩ := usable'.elementPtr wf read' kind'
  have front {e : ElementPtrRecord} {v : ValueRef} {r br : ValueRecord}
      (read : ctx.value v = .ok r) (kind : r.kind = .elementPtr e)
      (held : ctx.value e.base = .ok br) : Spaced isTypeChar
        ((ctx.typeText e.sourceType).toList ++ ',' :: ' ' :: (ctx.typeText br.type).toList) :=
    ((wf.typeLike_typeText (wf.elementPtrSound read kind).sourceType).append_comma
      (wf.typeLike_typeText (wf.valueSound held).type)).spaced
  have regroup {a b q : List Char} :
      a ++ ',' :: ' ' :: (b ++ q) = (a ++ ',' :: ' ' :: b) ++ q := by simp
  have grouped := inside
  rw [spelled, spelled', List.append_assoc, List.append_assoc, regroup, regroup] at grouped
  obtain ⟨types, _, references⟩ := split_reference made held held' referred referred'
    (front read kind held) (front read' kind' held') grouped
  have backwards : ctx.backward br.type ++ ' ' :: ',' :: ctx.backward e.sourceType =
      ctx.backward br'.type ++ ' ' :: ',' :: ctx.backward e'.sourceType := by
    simpa [backward] using congrArg List.reverse types
  obtain ⟨baseTypes, _⟩ := wf.backward_inj (wf.valueSound held).type _ _ _
    (wf.valueSound held').type backwards
  have bases : base.toList ++ (closing indices ++ s) = base'.toList ++ (closing indices' ++ s') := by
    rw [spelled, spelled', baseTypes, List.append_assoc, List.append_assoc]
    exact congrArg (_ ++ ' ' :: ·) references
  obtain ⟨base_eq, behind⟩ := tells depth' e.base e'.base base base' _ _ basesUsable basesUsable' first
    first' (ends_closing indices s) (ends_closing indices' s') bases
  obtain ⟨indices_eq, rests⟩ := closing_inj tells indicesUsable indicesUsable' others others' behind
  refine ⟨?_, rests⟩
  rw [kind, kind', ValueKind.key?, ValueKind.key?, base_eq, indices_eq, bounds]

include wf live numbered known inside counted named made uniqued in
/-- Operands that are printed alike ahead of a comma, a parenthesis or nothing are one value. -/
theorem tellsApart (depth : Nat) : TellsApart ctx m f ⟨globals, locals⟩ depth := by
  induction depth with
  | zero =>
    intro _ v _ _ _ _ _ _ _ done
    obtain ⟨_, _, _, impossible, _⟩ := render_typed done
    cases impossible
  | succ depth tells =>
    intro depth' v v' a a' s s' usable usable' done done' ends ends' same
    obtain ⟨r, t, read, shown, text⟩ := render_typed done
    obtain ⟨r', t', read', shown', text'⟩ := render_typed done'
    obtain ⟨depth', rfl⟩ : ∃ d, depth' = d + 1 := by
      cases depth' with
      | zero => cases shown'
      | succ d => exact ⟨d, rfl⟩
    rw [text, text', List.append_assoc, List.append_assoc] at same
    obtain ⟨types, classes, references⟩ := split_reference made read read' shown shown'
      (wf.typeLike_typeText (wf.valueSound read).type).spaced
      (wf.typeLike_typeText (wf.valueSound read').type).spaced same
    have type : r.type = r'.type := wf.typeText_injective (wf.valueSound read).type
      (wf.valueSound read').type (String.toList_inj.mp types)
    have suits := made v r read
    have suits' := made v' r' read'
    have constant {key : ConstantKey} (content : r.kind.key? = some key)
        (content' : r'.kind.key? = some key) : v = v' :=
      uniqued v v' r r' key read read' content content'
    cases kind : r.kind with
    | int n =>
      obtain ⟨n', kind'⟩ := int_of_kindClass (classes.symm.trans (by rw [kind]; rfl))
      rw [kind] at suits
      rw [kind', ← type] at suits'
      have bits : n.bits = n'.bits :=
        Shape.integer.inj (Checked.unique suits.2 suits'.2)
      rw [render_int read kind shown, render_int read' kind' shown'] at references
      obtain ⟨rfl, rests⟩ := integerText_inj suits.1.canonical suits'.1.canonical bits ends ends'
        references
      exact ⟨constant (by rw [kind]; rfl) (by rw [kind']; rfl), rests⟩
    | bytes bytes =>
      obtain ⟨bytes', kind'⟩ := bytes_of_kindClass (classes.symm.trans (by rw [kind]; rfl))
      rw [kind] at suits
      rw [kind', ← type] at suits'
      obtain ⟨_, shaped, _⟩ := suits
      obtain ⟨_, shaped', _⟩ := suits'
      have length : bytes.length = bytes'.length :=
        (Shape.array.inj (Checked.unique shaped shaped')).2
      rw [render_bytes read kind shown, render_bytes read' kind' shown'] at references
      obtain ⟨rfl, rests⟩ := bytesText_inj length references
      exact ⟨constant (by rw [kind]; rfl) (by rw [kind']; rfl), rests⟩
    | elementPtr e =>
      obtain ⟨e', kind'⟩ := elementPtr_of_kindClass (classes.symm.trans (by rw [kind]; rfl))
      obtain ⟨keys, rests⟩ := elementPtr_inj wf made tells usable usable' read read' kind kind' shown
        shown' references
      have content : r.kind.key? = some (.elementPtr e.base e.indices e.inBounds) := by rw [kind]; rfl
      exact ⟨constant content (keys ▸ content), rests⟩
    | global | function =>
      have marked : kindClass r.kind = 3 := by rw [kind]; rfl
      have marked' : kindClass r'.kind = 3 := classes.symm.trans marked
      obtain ⟨t, content, rfl⟩ := render_global read marked shown
      obtain ⟨t', content', rfl⟩ := render_global read' marked' shown'
      simp only [String.toList_append, List.append_assoc] at references
      exact symbol_inj wf named Function.injective_id ((usable.scoped read).1 marked)
        ((usable'.scoped read').1 marked') read read'
        (fun none => (listed_of_usable wf live numbered known inside counted usable read none).1 marked)
        (fun none => (listed_of_usable wf live numbered known inside counted usable' read' none).1 marked')
        content content' ends ends' (List.append_cancel_left references)
    | argument | instruction =>
      have marked : kindClass r.kind = 4 := by rw [kind]; rfl
      have marked' : kindClass r'.kind = 4 := classes.symm.trans marked
      obtain ⟨t, content, rfl⟩ := render_local read marked shown
      obtain ⟨t', content', rfl⟩ := render_local read' marked' shown'
      simp only [String.toList_append, List.append_assoc] at references
      exact symbol_inj wf named (fun _ _ => Symbol.value.inj) ((usable.scoped read).2 marked)
        ((usable'.scoped read').2 marked') read read'
        (fun none => (listed_of_usable wf live numbered known inside counted usable read none).2 marked)
        (fun none => (listed_of_usable wf live numbered known inside counted usable' read' none).2 marked')
        content content' ends ends' (List.append_cancel_left references)
    | erased => exact absurd kind (value_eq_ok.mp read).2.2

end Listing
end ModuleIR
