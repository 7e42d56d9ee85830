import ModuleIR.Arena.Context
import ModuleIR.Build.Event

set_option autoImplicit false

/-!
# Building steps

A building step turns a context into an outcome: the events it reported, and either a violation or
an answer with the changed context. Steps compose in the monad `Build`. `result_bind` says that the
events do not influence the result, and `events_bind` that they are those of the first step followed
by those of the second, which has none when the first ends in a violation.
-/
namespace ModuleIR

structure Outcome (α : Type) where
  events : List Event
  result : Checked (α × Context)

def Build (α : Type) : Type := Context → Outcome α

namespace Build

variable {α β : Type}

def answer (a : α) : Build α := fun ctx => ⟨[], .ok (a, ctx)⟩

def andThen (step : Build α) (next : α → Build β) : Build β := fun ctx =>
  let first := step ctx
  match first.result with
  | .error violation => ⟨first.events, .error violation⟩
  | .ok (a, ctx') =>
    let second := next a ctx'
    ⟨first.events ++ second.events, second.result⟩

instance : Monad Build where
  pure := answer
  bind := andThen

def fail (violation : Violation) : Build α := fun _ => ⟨[], .error violation⟩

def read (reading : Context → Checked α) : Build α := fun ctx =>
  ⟨[], (reading ctx).map (·, ctx)⟩

def change (f : Context → Context) : Build Unit := fun ctx => ⟨[], .ok ((), f ctx)⟩

def emit (event : Event) : Build Unit := fun ctx => ⟨[event], .ok ((), ctx)⟩

def require (condition : Bool) (violation : Violation) : Build Unit :=
  if condition then answer () else fail violation

@[simp] theorem result_pure (a : α) (ctx : Context) :
    ((pure a : Build α) ctx).result = .ok (a, ctx) := rfl

@[simp] theorem result_bind (step : Build α) (next : α → Build β) (ctx : Context) :
    ((step >>= next) ctx).result =
      (step ctx).result >>= fun answer => (next answer.1 answer.2).result := by
  change (andThen step next ctx).result = _
  unfold andThen
  cases h : (step ctx).result <;> simp only [h] <;> rfl

theorem events_bind (step : Build α) (next : α → Build β) (ctx : Context) :
    ((step >>= next) ctx).events = (step ctx).events ++
      match (step ctx).result with
      | .ok answer => (next answer.1 answer.2).events
      | .error _ => [] := by
  change (andThen step next ctx).events = _
  unfold andThen
  cases h : (step ctx).result <;> simp [h]

@[simp] theorem result_read (reading : Context → Checked α) (ctx : Context) :
    (read reading ctx).result = (reading ctx).map (·, ctx) := rfl

@[simp] theorem result_change (f : Context → Context) (ctx : Context) :
    (change f ctx).result = .ok ((), f ctx) := rfl

@[simp] theorem result_emit (event : Event) (ctx : Context) :
    (emit event ctx).result = .ok ((), ctx) := rfl

@[simp] theorem result_fail (violation : Violation) (ctx : Context) :
    ((fail violation : Build α) ctx).result = .error violation := rfl

end Build
end ModuleIR
