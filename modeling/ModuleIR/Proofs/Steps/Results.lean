import Mathlib.Order.Defs.Unbundled
import ModuleIR.Build.Types
import ModuleIR.Proofs.Arena.WellFormed

set_option autoImplicit false

/-!
# What a successful step says

The result of a building step is taken apart from the outside in: a sequence succeeds when its parts
do, a read leaves the context as it is, a change never fails. `Build.Obeys` says of a step that every
successful run of it relates the contexts before and after; for a preorder that is shown part by
part.
-/
namespace ModuleIR.Build

variable {α β : Type} {ctx ctx' : Context}

theorem bind_eq_ok {step : Build α} {next : α → Build β} {b : β} :
    ((step >>= next) ctx).result = .ok (b, ctx') ↔
      ∃ a mid, (step ctx).result = .ok (a, mid) ∧ (next a mid).result = .ok (b, ctx') := by
  rw [result_bind, Checked.bind_eq_ok]
  exact Prod.exists

theorem pure_eq_ok {a b : α} :
    ((pure a : Build α) ctx).result = .ok (b, ctx') ↔ a = b ∧ ctx = ctx' := by
  rw [result_pure]
  simp

theorem read_eq_ok {reading : Context → Checked α} {a : α} :
    (read reading ctx).result = .ok (a, ctx') ↔ reading ctx = .ok a ∧ ctx = ctx' := by
  rw [result_read, Checked.map_eq_ok]
  constructor
  · rintro ⟨b, success, same⟩
    cases same
    exact ⟨success, rfl⟩
  · rintro ⟨success, rfl⟩
    exact ⟨a, success, rfl⟩

theorem change_eq_ok {f : Context → Context} {u : Unit} :
    (change f ctx).result = .ok (u, ctx') ↔ f ctx = ctx' := by
  rw [result_change]
  simp

theorem emit_eq_ok {event : Event} {u : Unit} :
    (emit event ctx).result = .ok (u, ctx') ↔ ctx = ctx' := by
  rw [result_emit]
  simp

theorem fail_eq_ok {violation : Violation} {a : α} :
    ((fail violation : Build α) ctx).result = .ok (a, ctx') ↔ False := by
  rw [result_fail]
  simp

theorem require_eq_ok {condition : Bool} {violation : Violation} {u : Unit} :
    (require condition violation ctx).result = .ok (u, ctx') ↔ condition = true ∧ ctx = ctx' := by
  unfold require
  cases condition
  · simp
  · exact pure_eq_ok.trans (by simp)

theorem update_eq_ok {f : Context → α × Context} {a : α} :
    (update f ctx).result = .ok (a, ctx') ↔ f ctx = (a, ctx') := by
  simp [update]

/-! ### What every successful run does -/

variable {R : Context → Context → Prop}

/-- The relation holds between the contexts before and after every successful run. -/
def Obeys (R : Context → Context → Prop) (step : Build α) : Prop :=
  ∀ ctx a ctx', (step ctx).result = .ok (a, ctx') → R ctx ctx'

namespace Obeys

section Refl

variable [Std.Refl R]

theorem pure (a : α) : Obeys R (Pure.pure a : Build α) := by
  intro ctx _ ctx' run
  obtain ⟨_, rfl⟩ := pure_eq_ok.mp run
  exact refl_of R ctx

theorem read (reading : Context → Checked α) : Obeys R (Build.read reading) := by
  intro ctx _ ctx' run
  obtain ⟨_, rfl⟩ := read_eq_ok.mp run
  exact refl_of R ctx

theorem emit (event : Event) : Obeys R (Build.emit event) := by
  intro ctx _ ctx' run
  obtain rfl := emit_eq_ok.mp run
  exact refl_of R ctx

theorem require (condition : Bool) (violation : Violation) :
    Obeys R (Build.require condition violation) := by
  intro ctx _ ctx' run
  obtain ⟨_, rfl⟩ := require_eq_ok.mp run
  exact refl_of R ctx

end Refl

theorem fail (violation : Violation) (next : α → Build β) :
    Obeys R (Build.fail violation >>= next) := by
  intro ctx _ ctx' run
  obtain ⟨_, _, failed, _⟩ := bind_eq_ok.mp run
  exact (fail_eq_ok.mp failed).elim

theorem change {f : Context → Context} (same : ∀ ctx, R ctx (f ctx)) :
    Obeys R (Build.change f) := by
  intro ctx _ ctx' run
  obtain rfl := change_eq_ok.mp run
  exact same ctx

theorem update {f : Context → α × Context} (same : ∀ ctx, R ctx (f ctx).2) :
    Obeys R (Build.update f) := by
  intro ctx a ctx' run
  have done := same ctx
  rw [update_eq_ok.mp run] at done
  exact done

theorem bind [IsTrans Context R] {step : Build α} {next : α → Build β} (first : Obeys R step)
    (second : ∀ a, Obeys R (next a)) : Obeys R (step >>= next) := by
  intro ctx b ctx' run
  obtain ⟨a, mid, run₁, run₂⟩ := bind_eq_ok.mp run
  exact trans_of R (first ctx a mid run₁) (second a mid b ctx' run₂)

end Obeys
end ModuleIR.Build
