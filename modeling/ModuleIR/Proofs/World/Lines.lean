import ModuleIR.Proofs.Listing.Lines
import ModuleIR.Proofs.World.Reachable

set_option autoImplicit false

/-!
# Texts of modules, line by line

The lines of a module's text are those its records fix, whatever names and bytes the records hold;
the name of the module itself is the exception, since it is listed as it was given.
-/
namespace ModuleIR

open Text

variable {ctx : Context}

theorem fitRows_comment_iff {rows : List Row} {lines : List String} (fit : ctx.FitRows rows lines)
    (name : String) :
    (∃ lines', ctx.FitRows (.comment :: rows) lines' ∧
      "; ModuleID = '" ++ name ++ "'\n" ++ unlines lines = unlines lines') ↔ Printable name := by
  have joined : "; ModuleID = '" ++ name ++ "'\n" ++ unlines lines =
      unlines (("; ModuleID = '" ++ name ++ "'") :: lines) := by
    simp only [unlines, String.append_assoc]
    rfl
  constructor
  · rintro ⟨lines', fit', same⟩
    have count := congrArg (fun s => s.toList.count '\n') same
    have length : lines'.length = lines.length + 1 := by
      rw [← fit'.each.length_eq, ← fit.each.length_eq, List.length_cons]
    rw [joined] at count
    simp only [toList_unlines_cons, List.count_append, List.count_cons_self,
      count_unlines fit.printable, count_unlines fit'.printable, length, String.toList_append] at count
    have none : '\n' ∉ name.toList := List.count_eq_zero.mp (by omega)
    intro c mem
    have shown : c ∈ (unlines lines').toList := by
      rw [← same, joined, toList_unlines_cons]
      simp only [String.toList_append, List.mem_append, mem, true_or, or_true]
    rcases isPrintable_of_mem_unlines fit'.printable shown with rfl | printable
    · exact absurd mem none
    · exact printable
  · intro printable
    refine ⟨_, ⟨.cons ⟨name, rfl⟩ fit.each, List.forall_mem_cons.mpr ⟨?_, fit.printable⟩⟩, joined⟩
    simp only [printable_append]
    exact ⟨⟨by decide +kernel, printable⟩, by decide +kernel⟩

namespace World

/-- After its comment the text of a module has the lines that its records fix, one for each row and
all of them printable, whatever names and bytes are listed in them. The comment is one line like the
others exactly when the name of the module is printable. -/
theorem module_laid_out {m : ModuleRef} {mr : ModuleRecord} {text : String}
    (found : ctx.module m = .ok mr) (done : ctx.moduleText m = .ok text) :
    ∃ rows lines, ctx.moduleRows m = .ok rows ∧ ctx.FitRows rows lines ∧
      text = "; ModuleID = '" ++ mr.name ++ "'\n" ++ unlines lines ∧
      ((∃ lines', ctx.FitRows (.comment :: rows) lines' ∧ text = unlines lines') ↔
        Printable mr.name) := by
  obtain ⟨rows, lines, has, fit, rfl⟩ := Context.moduleText_lines found done
  exact ⟨rows, lines, has, fit, rfl, fitRows_comment_iff fit mr.name⟩

/-- The name of the module holds a line of its own. -/
def declaringName : World := after [.context, .request 0 (.createModule "m\ndeclare void @g()\n;")]

theorem declaringName_not_laid_out : ∃ ctx ∈ declaringName.contexts, ∃ text,
    ctx.moduleText ⟨⟨1⟩, 0⟩ = .ok text ∧ ctx.moduleRows ⟨⟨1⟩, 0⟩ = .ok [] ∧
      text = "; ModuleID = 'm\ndeclare void @g()\n;'\n" ∧
      ¬∃ lines, ctx.FitRows [.comment] lines ∧ text = unlines lines := by
  have computed : (declaringName.contexts[0]?).any (fun ctx : Context =>
      (ctx.module ⟨⟨1⟩, 0⟩).map (·.name) = .ok "m\ndeclare void @g()\n;" ∧
        ctx.moduleText ⟨⟨1⟩, 0⟩ = .ok "; ModuleID = 'm\ndeclare void @g()\n;'\n" ∧
        ctx.moduleRows ⟨⟨1⟩, 0⟩ = .ok []) = true := by decide +kernel
  obtain ⟨ctx, found, computed⟩ := (Option.any_eq_true _ _).mp computed
  obtain ⟨named, done, rows⟩ := of_decide_eq_true computed
  obtain ⟨mr, live, name⟩ := Checked.map_eq_ok.mp named
  obtain ⟨rows', _, has, _, _, fits⟩ := module_laid_out live done
  obtain rfl := Checked.unique rows has
  refine ⟨ctx, List.mem_of_getElem? found, _, done, rows, rfl, fun laid => ?_⟩
  have printable := fits.mp laid
  rw [name] at printable
  exact absurd printable (by decide +kernel)

end World
end ModuleIR
