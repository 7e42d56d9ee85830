import ModuleIR.Proofs.Listing.Operands
import ModuleIR.Proofs.World.ConstantIdentity

set_option autoImplicit false

/-!
# Names and strings are read back

Whatever a name is, its bytes are read back from how it is written, and no written name looks like a
number or like a reference to nothing. A string constant can always be made, and wherever it is printed
from then on the bytes that were asked for are read back behind its type, which tells how many they are.
-/
namespace ModuleIR

open Context

namespace Text

/-- The bytes that are meant by what is printed of an array of so many: zeros, or what stands between
quotes. -/
def readBytes (length : Nat) (written : String) : Option (List UInt8) :=
  if written = "zeroinitializer" then some (List.replicate length 0)
  else
    match written.toList with
    | 'c' :: '"' :: rest =>
      match rest.getLast? with
      | some '"' => unescape rest.dropLast
      | _ => none
    | _ => none

theorem readBytes_bytesText (bytes : List UInt8) :
    readBytes bytes.length (bytesText bytes) = some bytes := by
  have written := toList_bytesText bytes
  unfold readBytes
  by_cases zeros : bytes.all (· == 0) = true
  · rw [if_pos zeros] at written
    have replicated : bytes = List.replicate bytes.length 0 :=
      List.eq_replicate_of_mem fun b mem => by simpa using List.all_eq_true.mp zeros b mem
    rw [if_pos (String.toList_inj.mp written), ← replicated]
  · rw [if_neg zeros] at written
    have quoted : bytesText bytes ≠ "zeroinitializer" := by
      intro same
      rw [same] at written
      exact absurd (List.cons.inj written).1 (by decide)
    rw [if_neg quoted, written]
    simp [unescape_escapeBytes]

theorem readIdent_ident (name : String) : readIdent (ident name) = some (nameBytes name) := by
  unfold readIdent
  by_cases bare : isBareIdent (nameBytes name) = true
  · obtain ⟨c, rest, content, letter, _⟩ := first_of_bare bare
    have same : ident name = name := if_pos bare
    rw [same, content]
    split
    · rename_i quote
      obtain rfl := (List.cons.inj quote).1
      exact absurd letter (by decide)
    · exact if_pos bare
  · rw [toList_ident, if_neg bare]
    simp [unescape_escapeBytes]

theorem ident_ne_unresolved (name : String) : ident name ≠ "<badref>" := by
  intro same
  have written := toList_ident name
  rw [same] at written
  split at written
  · rename_i bare
    exact absurd (isIdentChar_of_bare bare '<' (written ▸ List.mem_cons_self)) (by decide)
  · exact absurd (List.cons.inj written).1 (by decide)

theorem ident_injective {name name' : String} (same : ident name = ident name') : name = name' :=
  (ident_inj_of_stops stops_nil stops_nil (by rw [same])).1

end Text

namespace Listing

variable {ctx : Context} {v : ValueRef} {r : ValueRecord} {bytes : List UInt8}

theorem render_operand_bytes (wf : ctx.WellFormed) (read : ctx.value v = .ok r)
    (kind : r.kind = .bytes bytes) (slots : Slots) :
    (operand ctx slots v).render = .ok (ctx.typeText r.type ++ " " ++ bytesText bytes) := by
  have reference : ref ctx slots v = [.text (bytesText bytes)] := by
    simp only [ref, refWithin, reading, read, kind]
  simp [operand, reading, wf.describeTypeOf_eq read, reference, render_cons, Piece.content,
    String.append_assoc]

theorem value_bytes (read : ctx.value v = .ok r) (kind : r.kind = .bytes bytes) :
    value ctx v = operand ctx {} v := by
  simp only [value, reading, read, kind]

end Listing

namespace Build

variable {ctx : Context}

theorem constantString_succeeds (wf : ctx.WellFormed) (text : String) (addNull : Bool) :
    ∃ c ctx', (constantString text addNull ctx).result = .ok (c, ctx') := by
  obtain ⟨⟨byte⟩, mid, typed⟩ := integerType_runs ctx (show WideInt.validWidth 8 = true by decide)
  obtain ⟨_, _, shaped⟩ := integerType_spec wf typed
  have owned : ∀ u ∈ (Shape.array byte (stringBytes text addNull).length).inner, u.ctx = mid.id := by
    simpa [Shape.inner] using (shape_eq_ok.mp shaped).1
  obtain ⟨array, last, interned'⟩ := internType_runs owned
  have arrayed : (arrayType byte (stringBytes text addNull).length mid).result =
      .ok (⟨array⟩, last) := by
    refine bind_eq_ok.mpr ⟨(), mid, read_eq_ok.mpr ⟨?_, rfl⟩,
      bind_eq_ok.mpr ⟨array, last, interned', pure_eq_ok.mpr ⟨rfl, rfl⟩⟩⟩
    simp [shaped, Shape.isFirstClass]
  exact ⟨_, _, bind_eq_ok.mpr ⟨_, _, typed, bind_eq_ok.mpr ⟨_, _, arrayed,
    bind_eq_ok.mpr ⟨_, _, update_eq_ok.mpr rfl, pure_eq_ok.mpr ⟨rfl, rfl⟩⟩⟩⟩⟩

end Build

namespace Context

variable {ctx ctx' : Context} {v : ValueRef} {r : ValueRecord} {bytes : List UInt8}

/-- The type of a string tells how many bytes it has. -/
theorem typeText_bytes (wf : ctx.WellFormed) (made : ctx.AllWellMade) (read : ctx.value v = .ok r)
    (kind : r.kind = .bytes bytes) :
    ctx.typeText r.type = "[" ++ toString bytes.length ++ " x i8]" := by
  have suits := (made v r read).1
  rw [kind] at suits
  obtain ⟨byte, array, integer⟩ := suits
  have text : ctx.typeText byte = "i8" := wf.typeText_eq integer
  rw [wf.typeText_eq array, Shape.text, text]
  simp [String.append_assoc]

theorem ConstantsLast.string (last : ctx.ConstantsLast ctx') (read : ctx.value v = .ok r)
    (kind : r.kind = .bytes bytes) : ∃ r', ctx'.value v = .ok r' ∧ r'.kind = .bytes bytes := by
  rcases last.constants v r (.bytes bytes) read (by rw [kind]; rfl) with
    ⟨r', read', content⟩ | ⟨_, _, _, other, _⟩
  · refine ⟨r', read', ?_⟩
    cases kind' : r'.kind <;> rw [kind'] at content <;> cases content
    rfl
  · cases other

end Context

namespace World

variable {w : World} {ctx : Context} {k : Nat}

/-- A written name stands for the bytes of the name, is neither a number nor a reference to nothing, and
is the writing of no other name. A string constant of any text can be made; from then on, wherever it is
printed, its type has the number of its bytes and what follows stands for these bytes: those of the
text up to its first zero byte, and a zero byte if asked for. -/
theorem names_and_strings_read_back (reachable : w.Reachable) (found : w.contexts[k]? = some ctx) :
    (∀ name, Text.readIdent (Text.ident name) = some (Text.nameBytes name) ∧
      (∃ c ∈ (Text.ident name).toList, c.isDigit = false) ∧ Text.ident name ≠ "<badref>" ∧
      ∀ name', Text.ident name = Text.ident name' → name = name') ∧
    ∀ text addNull, ∃ v ctx',
      ((Request.constantString text addNull).run ctx).result = .ok ([.value .constant v], ctx') ∧
      ∀ later, Relation.ReflTransGen Step
          { contexts := w.contexts.set k ctx', handles := w.handles ++ [.value .constant v] } later →
        ∃ last bytes body, later.contexts[k]? = some last ∧
          bytes = (Text.nameBytes text).takeWhile (· != 0) ++ (if addNull then [0] else []) ∧
          last.valueText v = .ok ("[" ++ toString bytes.length ++ " x i8] " ++ body) ∧
          (∀ slots, (Listing.operand last slots v).render = last.valueText v) ∧
          Text.readBytes bytes.length body = some bytes := by
  constructor
  · intro name
    obtain ⟨c, rest, content, other⟩ := Text.head_ident name []
    rw [List.append_nil] at content
    exact ⟨Text.readIdent_ident name, ⟨c, content ▸ List.mem_cons_self, other⟩,
      Text.ident_ne_unresolved name, fun _ => Text.ident_injective⟩
  · intro text addNull
    have wf := reachable.sound.wellFormed ctx (List.mem_of_getElem? found)
    obtain ⟨c, ctx', built⟩ := Build.constantString_succeeds wf text addNull
    have run : ((Request.constantString text addNull).run ctx).result =
        .ok ([.value .constant c.value], ctx') :=
      Build.bind_eq_ok.mpr ⟨c, ctx', built, Build.pure_eq_ok.mpr ⟨rfl, rfl⟩⟩
    refine ⟨c.value, ctx', run, fun later steps => ?_⟩
    obtain ⟨_, _, r, read, kind⟩ := Build.constantString_spec wf built
    have after := reachable.step (.request found (by simp [Request.handles]) run)
    have here : (w.contexts.set k ctx')[k]? = some ctx' :=
      List.getElem?_set_self (List.getElem?_eq_some_iff.mp found).1
    obtain ⟨reachable', last, found', lasts⟩ := constants_of_steps after steps here
    obtain ⟨r', read', kind'⟩ := lasts.string read kind
    have mem' := List.mem_of_getElem? found'
    have wf' := reachable'.sound.wellFormed last mem'
    have printed (slots : Slots) := Listing.render_operand_bytes wf' read' kind' slots
    have alone : last.valueText c.value = (Listing.operand last {} c.value).render := by
      rw [valueText, Listing.value_bytes read' kind']
    refine ⟨last, Build.stringBytes text addNull, bytesText (Build.stringBytes text addNull), found',
      rfl, ?_, fun slots => ?_, Text.readBytes_bytesText _⟩
    · rw [alone, printed, typeText_bytes wf' (reachable'.allWellMade last mem') read' kind']
      simp [String.append_assoc]
    · rw [alone, printed, printed]

/-- A string with a character of two bytes, a quote and a zero byte, behind which the text goes on. -/
theorem oneContext_string : ∃ ctx v ctx' body,
    (after [.context]).contexts[0]? = some ctx ∧
    ((Request.constantString "q\"é\x00z" true).run ctx).result = .ok ([.value .constant v], ctx') ∧
    ctx'.valueText v = .ok ("[5 x i8] " ++ body) ∧
    Text.readBytes 5 body = some [0x71, 0x22, 0xC3, 0xA9, 0] ∧
    Text.readIdent (Text.ident "0 \"é\"") = some (Text.nameBytes "0 \"é\"") := by
  have computed : ((after [.context]).contexts[0]?).isSome = true := by decide +kernel
  obtain ⟨ctx, found⟩ := Option.isSome_iff_exists.mp computed
  obtain ⟨names, strings⟩ := names_and_strings_read_back (reachable_after (by decide +kernel)) found
  obtain ⟨v, ctx', run, lasting⟩ := strings "q\"é\x00z" true
  obtain ⟨last, bytes, body, found', content, printed, _, denoted⟩ := lasting _ .refl
  have inside : 0 < (after [.context]).contexts.length := (List.getElem?_eq_some_iff.mp found).1
  obtain rfl : ctx' = last := Option.some.inj ((List.getElem?_set_self inside).symm.trans found')
  have five : bytes = [0x71, 0x22, 0xC3, 0xA9, 0] := content.trans (by decide +kernel)
  rw [five] at printed denoted
  exact ⟨ctx, v, ctx', body, found, run, printed, denoted, (names _).1⟩

end World
end ModuleIR
