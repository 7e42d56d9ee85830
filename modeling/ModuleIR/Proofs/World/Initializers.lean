import ModuleIR.Proofs.Steps.Building

set_option autoImplicit false

/-!
# Initializers have the type of their global

The type of an initializer is checked when it is set, by either of the two steps that set one. Later
operations change neither the types of values nor that of the global, and an erasure that takes an
initializer takes its global as well.
-/
namespace ModuleIR

namespace Context

/-- Whatever initializes a global is alive and has the type of the global. -/
def InitializersTyped (ctx : Context) : Prop :=
  ∀ g gr init, ctx.global g = .ok gr → gr.initializer = some init →
    ctx.valueType init.value = .ok gr.valueType

variable {ctx ctx' : Context}

theorem initializersTyped_new (id : ContextId) : (Context.new id).InitializersTyped := by
  intro g gr init known
  obtain ⟨r, read, _⟩ := global_eq_ok.mp known
  simp [Context.new, value_eq_ok] at read

theorem InitializersTyped.elementary (h : ctx.InitializersTyped) (e : ctx.Elementary ctx') :
    ctx'.InitializersTyped := by
  intro g gr' init known given
  rcases e.global_cases known with ⟨gr, old, valueType, same⟩ | checked
  · rw [← valueType]
    exact e.grows.valueType (h g gr init old (same.trans given))
  · exact e.grows.valueType (checked init given)

theorem InitializersTyped.erase (h : ctx.InitializersTyped) (wf' : ctx'.WellFormed) {m : ModuleRef}
    (e : ctx.Erases m ctx') : ctx'.InitializersTyped := by
  intro g gr init known given
  obtain ⟨r, read, kind⟩ := global_eq_ok.mp known
  have sound := (wf'.valueSound read).kind
  rw [kind] at sound
  obtain ⟨ir, alive, _⟩ := (sound.initializer init given).constant
  obtain ⟨ir', alive', type⟩ := valueType_eq_ok.mp (h g gr init (e.global.mp known).1 given)
  obtain rfl := Checked.unique (e.value.mp alive).1 alive'
  exact valueType_eq_ok.mpr ⟨ir, alive, type⟩

end Context

open Context

theorem World.Reachable.initializersTyped {w : World} (reachable : w.Reachable) :
    ∀ ctx ∈ w.contexts, ctx.InitializersTyped :=
  reachable.invariant_of_elementary initializersTyped_new
    (fun _ _ step before => before.elementary step) fun _ _ _ _ wf' erases before =>
      before.erase wf' erases

end ModuleIR
