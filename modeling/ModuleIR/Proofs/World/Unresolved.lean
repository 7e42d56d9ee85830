import ModuleIR.Proofs.Listing.Resolution
import ModuleIR.Proofs.World.Dangling

set_option autoImplicit false

/-!
# Unresolved references

A module that the verifier accepts has a text, and a reference in it can be unresolved in one way
only. The type of what a return gives back is compared with the result type of its function, and
void is equal to void: the call of a void function passes as the value that a void function returns,
though a void call without a name has no number to refer to it by.
-/
namespace ModuleIR

namespace World

open Context

variable {w : World} {ctx : Context} {m : ModuleRef}

theorem unresolved_iff_returnsMute (reachable : w.Reachable) (mem : ctx ∈ w.contexts)
    (accepted : ctx.verifyModule m = .ok (.ok ())) :
    (∃ text, ctx.moduleText m = .ok text) ∧
      (.unresolved ∈ Listing.module ctx m ↔ ctx.ReturnsMute m) := by
  have wf := reachable.sound.wellFormed ctx mem
  obtain ⟨mr, live, sound⟩ := (verifyModule_eq_ok wf).mp accepted
  have resolved := Listing.resolved_module wf live (reachable.typed ctx mem) sound
  exact ⟨(moduleText_eq_ok wf live).mpr (not_dangles_of_accepted wf accepted),
    Classical.not_not.symm.trans (not_congr resolved |>.trans Classical.not_not)⟩

/-- A void function calls itself, and returns the call. -/
def voidReturn : World := after [.context, .request 0 .voidType,
  .request 0 (.functionType ⟨⟨1⟩, 0⟩ [] false), .request 0 (.createModule "m"),
  .request 0 (.createFunction ⟨⟨⟨1⟩, 1⟩⟩ .external "f" ⟨⟨1⟩, 0⟩),
  .request 0 (.createBlock "entry" (some ⟨⟨⟨1⟩, 0⟩⟩) none), .upcast (.value .any ⟨⟨1⟩, 0⟩),
  .request 0 (.createCall ⟨⟨1⟩, 0⟩ [] "" ⟨⟨1⟩, 0⟩), .upcast (.value .any ⟨⟨1⟩, 1⟩),
  .request 0 (.createReturn (some ⟨⟨1⟩, 1⟩) ⟨⟨1⟩, 0⟩)]

theorem voidReturn_unresolved : ∃ ctx ∈ voidReturn.contexts,
    ctx.verifyModule ⟨⟨1⟩, 0⟩ = .ok (.ok ()) ∧ (∃ text, ctx.moduleText ⟨⟨1⟩, 0⟩ = .ok text) ∧
      .unresolved ∈ Listing.module ctx ⟨⟨1⟩, 0⟩ ∧ ctx.ReturnsMute ⟨⟨1⟩, 0⟩ := by
  have computed : (voidReturn.contexts[0]?).any (fun ctx : Context =>
      ctx.verifyModule ⟨⟨1⟩, 0⟩ = .ok (.ok ()) ∧
        .unresolved ∈ Listing.module ctx ⟨⟨1⟩, 0⟩) = true := by decide +kernel
  obtain ⟨ctx, found, computed⟩ := (Option.any_eq_true _ _).mp computed
  obtain ⟨accepted, unresolved⟩ := of_decide_eq_true computed
  have mem : ctx ∈ voidReturn.contexts := List.mem_of_getElem? found
  have printed := unresolved_iff_returnsMute (reachable_after (by decide +kernel)) mem accepted
  exact ⟨ctx, mem, accepted, printed.1, unresolved, printed.2.mp unresolved⟩

end World
end ModuleIR
