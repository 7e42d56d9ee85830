import ModuleIR.Proofs.Listing.Bases
import ModuleIR.Proofs.World.Initializers

set_option autoImplicit false

/-!
# Pointers into globals, on their own and in their module

Pointer arithmetic is printed on its own without the numbers of its module. In a module it is printed
the same as operand of an instruction and as initializer of a global. The two texts agree if the chain
of bases ends in a global or function with a name; without one the module prints a number, where the
pointer on its own refers to nothing.
-/
namespace ModuleIR

namespace Listing

theorem numbered_ne_unresolved {front back : String} {k : Nat} :
    front ++ "@" ++ "<badref>" ++ back ≠ front ++ "@" ++ toString k ++ back := by
  intro same
  have texts := congrArg String.toList same
  simp only [String.toList_append, List.append_assoc] at texts
  have marks := List.append_cancel_right (List.append_cancel_left (List.append_cancel_left texts))
  have digit : '<'.isDigit = true :=
    Text.isDigit_of_mem_toString (marks ▸ List.mem_cons_self : '<' ∈ (toString k).toList)
  exact absurd digit (by decide)

end Listing

namespace World

open Context

variable {w : World} {ctx : Context} {m : ModuleRef} {mr : ModuleRecord} {v root : ValueRef}
  {r : ValueRecord} {e : ElementPtrRecord}

/-- Pointer arithmetic over a global or function of a module has one text as operand and as initializer
there. It is printed so on its own exactly if the end of its chain of bases has a name; else one text
has the number of this base, in the place where the other has a reference to nothing. -/
theorem elementPtr_printed_alone (reachable : w.Reachable) (mem : ctx ∈ w.contexts)
    (live : ctx.module m = .ok mr) (read : ctx.value v = .ok r) (kind : r.kind = .elementPtr e)
    (rests : ctx.RestsOn m v root) :
    ∃ globals rr alone printed, ctx.globalSlots m = .ok globals ∧ ctx.value root = .ok rr ∧
      ctx.valueText v = .ok alone ∧
      (∀ locals, (Listing.operand ctx { globals, locals } v).render = .ok printed) ∧
      (∀ g ∈ mr.globals, ∀ gr, ctx.global g = .ok gr → gr.initializer = some ⟨v⟩ →
        ∃ front, (Listing.globalLine ctx { globals } g).render = .ok (front ++ printed)) ∧
      (alone = printed ↔ rr.name ≠ none) ∧
      (rr.name = none → ∃ front back, ∃ k : Nat, globals[k]? = some root ∧
        printed = front ++ "@" ++ toString k ++ back ∧ alone = front ++ "@<badref>" ++ back) := by
  have wf := reachable.sound.wellFormed ctx mem
  obtain ⟨globals, numbered⟩ := globalSlots_reads wf live
  obtain ⟨rr, held⟩ := rests.live
  obtain ⟨front, back, rendered⟩ := Listing.render_operand_chain wf rests read held
  have alone := rendered {}
  rw [← Listing.value_elementPtr read kind] at alone
  have printed (locals : List Symbol) : (Listing.operand ctx { globals, locals } v).render =
      .ok (front ++ "@" ++ Listing.referentText rr.name (globals.idxOf? root) ++ back) :=
    rendered { globals, locals }
  refine ⟨globals, rr, _, _, numbered, held, alone, printed, fun g listed gr known given => ?_, ?_⟩
  · exact Listing.render_globalLine wf known given
      (reachable.initializersTyped ctx mem g gr _ known given) (printed [])
  · cases name : rr.name with
    | some name => exact ⟨by simp [Listing.referentText], by simp⟩
    | none =>
      obtain ⟨k, place, stored⟩ := rests.numbered wf numbered held name
      have nothing : ([] : List ValueRef).idxOf? root = none := rfl
      simp only [place, nothing, Listing.referentText]
      refine ⟨iff_of_false Listing.numbered_ne_unresolved (by simp), fun _ => ?_⟩
      exact ⟨front, back, k, stored, rfl, by simp [String.append_assoc]⟩

/-- A pointer into an unnamed global, a pointer over that, and a global that the second initializes. -/
def unnamedBase : World := after [.context, .request 0 (.integerType 8), .upcast (.type .any ⟨⟨1⟩, 0⟩),
  .request 0 (.pointerType ⟨⟨1⟩, 0⟩ .generic), .upcast (.type .any ⟨⟨1⟩, 1⟩),
  .request 0 (.createModule "m"), .request 0 (.createGlobal ⟨⟨1⟩, 0⟩ { type := ⟨⟨1⟩, 0⟩ }),
  .request 0 (.constantInt (.ofUInt64 32 0) (.unsigned rfl 0)), .upcast (.value .constant ⟨⟨1⟩, 0⟩),
  .upcast (.value .constant ⟨⟨1⟩, 1⟩), .request 0 (.elementPtr ⟨⟨⟨1⟩, 0⟩⟩ [⟨⟨⟨1⟩, 1⟩⟩] false),
  .request 0 (.elementPtr ⟨⟨⟨1⟩, 2⟩⟩ [⟨⟨⟨1⟩, 1⟩⟩] false),
  .request 0 (.createGlobal ⟨⟨1⟩, 0⟩
    { type := ⟨⟨1⟩, 1⟩, initializer := some ⟨⟨⟨1⟩, 3⟩⟩, name := "p" })]

theorem unnamedBase_printed_apart : ∃ ctx ∈ unnamedBase.contexts, ∃ front,
    ctx.valueText ⟨⟨1⟩, 3⟩ =
      .ok "i8* getelementptr (i8, i8* getelementptr (i8, i8* @<badref>, i32 0), i32 0)" ∧
    (∀ locals, (Listing.operand ctx { globals := [⟨⟨1⟩, 0⟩], locals } ⟨⟨1⟩, 3⟩).render =
      .ok "i8* getelementptr (i8, i8* getelementptr (i8, i8* @0, i32 0), i32 0)") ∧
    (Listing.globalLine ctx { globals := [⟨⟨1⟩, 0⟩] } ⟨⟨⟨1⟩, 4⟩⟩).render = .ok
      (front ++ "i8* getelementptr (i8, i8* getelementptr (i8, i8* @0, i32 0), i32 0)") := by
  have computed : (unnamedBase.contexts[0]?).any (fun ctx : Context =>
      (ctx.module ⟨⟨1⟩, 0⟩).map (·.globals) = .ok [⟨⟨⟨1⟩, 0⟩⟩, ⟨⟨⟨1⟩, 4⟩⟩] ∧
      ctx.globalSlots ⟨⟨1⟩, 0⟩ = .ok [⟨⟨1⟩, 0⟩] ∧
      (ctx.global ⟨⟨⟨1⟩, 0⟩⟩).map (·.module) = .ok ⟨⟨1⟩, 0⟩ ∧
      (ctx.global ⟨⟨⟨1⟩, 4⟩⟩).map (·.initializer) = .ok (some ⟨⟨⟨1⟩, 3⟩⟩) ∧
      (ctx.value ⟨⟨1⟩, 2⟩).map (·.kind) =
        .ok (.elementPtr ⟨⟨⟨1⟩, 0⟩, ⟨⟨1⟩, 0⟩, [⟨⟨1⟩, 1⟩], false⟩) ∧
      (ctx.value ⟨⟨1⟩, 3⟩).map (·.kind) =
        .ok (.elementPtr ⟨⟨⟨1⟩, 0⟩, ⟨⟨1⟩, 2⟩, [⟨⟨1⟩, 1⟩], false⟩) ∧
      ctx.valueText ⟨⟨1⟩, 3⟩ =
        .ok "i8* getelementptr (i8, i8* getelementptr (i8, i8* @<badref>, i32 0), i32 0)" ∧
      (Listing.operand ctx { globals := [⟨⟨1⟩, 0⟩] } ⟨⟨1⟩, 3⟩).render =
        .ok "i8* getelementptr (i8, i8* getelementptr (i8, i8* @0, i32 0), i32 0)") = true := by
    decide +kernel
  obtain ⟨ctx, found, computed⟩ := (Option.any_eq_true _ _).mp computed
  obtain ⟨listed, numbered, inside, given, inner, outer, text, operand⟩ := of_decide_eq_true computed
  obtain ⟨mr, live, globals⟩ := Checked.map_eq_ok.mp listed
  obtain ⟨_, known, inside⟩ := Checked.map_eq_ok.mp inside
  obtain ⟨gr, initialized, given⟩ := Checked.map_eq_ok.mp given
  obtain ⟨_, read, kind⟩ := Checked.map_eq_ok.mp inner
  obtain ⟨_, read', kind'⟩ := Checked.map_eq_ok.mp outer
  have mem := List.mem_of_getElem? found
  obtain ⟨slots, _, alone, printed, numbered', _, _, operands, lines, _⟩ :=
    elementPtr_printed_alone (reachable_after (by decide +kernel)) mem live read' kind'
      (.elementPtr read' kind' (.elementPtr read kind (.global known inside)))
  obtain rfl := Checked.unique numbered numbered'
  obtain rfl := Checked.unique operand (operands [])
  obtain ⟨front, line⟩ := lines ⟨⟨⟨1⟩, 4⟩⟩ (by simp [globals]) gr initialized given
  exact ⟨ctx, mem, front, text, operands, line⟩

end World
end ModuleIR
