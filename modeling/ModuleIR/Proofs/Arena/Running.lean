import ModuleIR.Build.Outcome

set_option autoImplicit false

/-!
# Loops and recursions without a bound

A recursion is followed for a number of calls inside one another, and a loop for a number of rounds.
What goes on after them is still running.
-/
namespace ModuleIR

/-- What has ended, in a result or in a violation, or is running still. -/
abbrev Running (α : Type) : Type := ExceptT Violation Option α

namespace Running

variable {α β : Type}

def still : Running α := .mk none

def ended (read : Checked α) : Running α := .mk (some read)

@[simp] theorem liftM_eq (read : Checked α) : (liftM read : Running α) = ended read := by
  cases read <;> rfl

@[simp] theorem pure_eq (a : α) : (pure a : Running α) = ended (.ok a) := rfl

@[simp] theorem ok_bind (a : α) (next : α → Running β) : (ended (.ok a) >>= next) = next a := rfl

theorem mapM_eq {read : α → Running β} {checked : α → Checked β} {xs : List α}
    (each : ∀ x ∈ xs, read x = ended (checked x)) : xs.mapM read = ended (xs.mapM checked) := by
  induction xs with
  | nil => rfl
  | cons x rest ih =>
    have others := ih fun y mem => each y (List.mem_cons_of_mem x mem)
    rw [List.mapM_cons, List.mapM_cons, each x List.mem_cons_self, others]
    cases checked x with
    | error violation => rfl
    | ok y => cases rest.mapM checked <;> rfl

end Running

end ModuleIR
