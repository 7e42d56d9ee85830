import ModuleIR.Proofs.Consistency.Readings
import ModuleIR.Proofs.Consistency.Steps

set_option autoImplicit false

/-!
# Typed handles keep their promises

A typed handle promises a variant, and every reading that relies on the promise would end in a
violation of its own kind where it is broken. In a reachable world no handle breaks its promise, so no
request and no reading ends that way, on whatever context and for however long the handle is kept.
-/
namespace ModuleIR.World

open Context

variable {w : World}

/-- Every handle that was ever handed out names an entry of its variant, or what is left of one. So
requests and readings with such handles never come upon a broken promise, what readings and upcasts
answer is again such a handle, and the cast back from the handle that a typed handle wraps succeeds as
long as the value lives. -/
theorem handles_keep_promises (reachable : w.Reachable) :
    (∀ h ∈ w.handles, w.Names h) ∧ ∀ ctx ∈ w.contexts,
      (∀ request : Request, (∀ h ∈ request.handles, h ∈ w.handles) →
        (request.run ctx).result.Consistent) ∧
      ∀ h ∈ w.handles, (∀ h' ∈ upcasts h, w.Names h') ∧ (ctx.Lives h → ctx.CastsBack h) ∧
        ∀ (α : Type) (reading : Checked α) (handles : α → List Handle),
          ctx.Offers h reading handles → reading.Consistent ∧
            ∀ a, reading = .ok a → ∀ h' ∈ handles a, w.Names h' := by
  have sound := reachable.sound
  refine ⟨sound.handles, fun ctx mem => ⟨fun request known => ?_, fun h known => ?_⟩⟩
  · exact Request.consistent (sound.wellFormed ctx mem) (sound.admits_known mem known)
  · have named := sound.handles h known
    have admitted := sound.admits mem named
    refine ⟨fun h' up => sound.yields mem named (yields_of_upcast up),
      fun lives => (admitted.reads lives).castsBack, fun α reading handles offers => ⟨?_, ?_⟩⟩
    · exact offers.consistent (sound.wellFormed ctx mem)
        (reachable.eachInstruction inherent_hasResult ctx mem) admitted
    · exact fun a read h' inside => sound.yields mem named (offers.yields read inside)

/-- A world with a call of a live function, and a function whose module was erased. -/
def keptHandles : World := after [.context, .request 0 .voidType,
  .request 0 (.functionType ⟨⟨1⟩, 0⟩ [] false), .request 0 (.createModule "m"),
  .request 0 (.createFunction ⟨⟨⟨1⟩, 1⟩⟩ .external "f" ⟨⟨1⟩, 0⟩), .request 0 (.createModule "n"),
  .request 0 (.createFunction ⟨⟨⟨1⟩, 1⟩⟩ .external "g" ⟨⟨1⟩, 1⟩),
  .upcast (.value .any ⟨⟨1⟩, 0⟩), .request 0 (.createBlock "entry" (some ⟨⟨⟨1⟩, 0⟩⟩) none),
  .request 0 (.createCall ⟨⟨1⟩, 0⟩ [] "" ⟨⟨1⟩, 0⟩), .request 0 (.eraseModule ⟨⟨1⟩, 1⟩)]

theorem keptHandles_keep_promises : ∃ ctx ∈ keptHandles.contexts,
    ctx.function ⟨⟨⟨1⟩, 1⟩⟩ = .error (.erasedValue 1) ∧
    ((Request.setFunctionLinkage ⟨⟨⟨1⟩, 1⟩⟩ .internal).run ctx).result.Consistent ∧
    (ctx.functionText ⟨⟨⟨1⟩, 1⟩⟩).Consistent ∧
    ctx.asCall? ⟨⟨1⟩, 2⟩ = .ok (some ⟨⟨⟨1⟩, 2⟩⟩) ∧ (ctx.calledType ⟨⟨⟨1⟩, 2⟩⟩).Consistent := by
  have computed : keptHandles.contexts.any (fun ctx : Context =>
      ctx.function ⟨⟨⟨1⟩, 1⟩⟩ = .error (.erasedValue 1) ∧
        (ctx.value ⟨⟨1⟩, 2⟩).toOption.isSome = true) = true := by decide +kernel
  obtain ⟨ctx, mem, computed⟩ := List.any_eq_true.mp computed
  obtain ⟨gone, live⟩ := of_decide_eq_true computed
  obtain ⟨r, ok⟩ := Option.isSome_iff_exists.mp live
  obtain ⟨_, promises⟩ := handles_keep_promises (w := keptHandles) (reachable_after (by decide +kernel))
  obtain ⟨requests, readings⟩ := promises ctx mem
  obtain ⟨_, _, offered⟩ := readings (.value .function ⟨⟨1⟩, 1⟩) (by decide +kernel)
  obtain ⟨_, casts, called⟩ := readings (.value .call ⟨⟨1⟩, 2⟩) (by decide +kernel)
  exact ⟨ctx, mem, gone, requests _ (by decide +kernel),
    (offered _ _ _ (.functionText (f := ⟨⟨⟨1⟩, 1⟩⟩))).1,
    casts ⟨r, Checked.toOption_eq_some.mp ok⟩, (called _ _ _ (.calledType (c := ⟨⟨⟨1⟩, 2⟩⟩))).1⟩

end ModuleIR.World
