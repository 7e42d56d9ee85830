import ModuleIR.Build.Accessors
import ModuleIR.Proofs.Arena.References
import ModuleIR.Proofs.Listing.TypeTexts
import ModuleIR.Proofs.Steps.Constants

set_option autoImplicit false

/-!
# Readings that trust their handles

A typed handle promises a variant, and a reading through it has no answer where the promise is
broken: it ends in the violation `inconsistent`. A reading is consistent when it does not end so,
whatever else it ends in. With handles that the context admits, and with what a well-formed context
refers to, every reading is consistent.
-/
namespace ModuleIR

namespace Checked

variable {α β : Type}

/-- The reading does not come upon a handle that breaks its promise. -/
def Consistent (c : Checked α) : Prop := ∀ what, c ≠ .error (.inconsistent what)

@[simp] theorem consistent_ok {a : α} : Consistent (.ok a) := nofun

@[simp] theorem consistent_error {v : Violation} :
    Consistent (.error v : Checked α) ↔ ∀ what, v ≠ .inconsistent what := by
  simp [Consistent]

theorem Consistent.of_ok {c : Checked α} (h : ∃ a, c = .ok a) : c.Consistent := by
  obtain ⟨a, rfl⟩ := h
  exact consistent_ok

theorem Consistent.bind {c : Checked α} {next : α → Checked β} (first : c.Consistent)
    (second : ∀ a, c = .ok a → (next a).Consistent) : (c >>= next).Consistent := by
  cases c with
  | ok a => exact second a rfl
  | error v => exact fun what same => first what (congrArg Except.error (Except.error.inj same))

theorem Consistent.reads {c : Checked α} {next : α → Checked β} (first : c.Consistent)
    (second : ∀ a, c = .ok a → ∃ b, (c >>= next) = .ok b) : (c >>= next).Consistent := by
  cases c with
  | ok a => exact .of_ok (second a rfl)
  | error v => exact first.bind nofun

theorem Consistent.map {c : Checked α} {f : α → β} (h : c.Consistent) :
    Consistent (Except.map f c) := by
  cases c with
  | ok a => exact consistent_ok
  | error v => exact fun what same => h what (congrArg Except.error (Except.error.inj same))

theorem Consistent.forM {f : α → Checked Unit} {xs : List α} (each : ∀ x ∈ xs, (f x).Consistent) :
    Consistent (xs.forM f) := by
  induction xs with
  | nil => exact consistent_ok
  | cons x rest ih =>
    rw [List.forall_mem_cons] at each
    exact each.1.bind fun _ _ => ih each.2

end Checked

namespace Context

open Checked (Consistent consistent_ok)

variable {ctx : Context}

/-! ### The arenas -/

theorem consistent_checkOwner (kind : EntityKind) (owner : ContextId) :
    Consistent (ctx.checkOwner kind owner) := by
  unfold checkOwner
  split <;> simp

theorem consistent_shape {view : TypeView} {t : TypeRef} (h : ctx.Admits (.type view t)) :
    Consistent (ctx.shape t) := by
  refine (consistent_checkOwner _ _).bind fun _ owner => ?_
  obtain ⟨shape, stored, _⟩ := h (checkOwner_eq_ok.mp owner)
  simp [stored]

theorem consistent_value {view : ValueView} {v : ValueRef} (h : ctx.Admits (.value view v)) :
    Consistent (ctx.value v) := by
  refine (consistent_checkOwner _ _).bind fun _ owner => ?_
  obtain ⟨r, stored, _⟩ := h (checkOwner_eq_ok.mp owner)
  simp only [stored]
  split <;> simp

theorem consistent_block {b : BlockRef} (h : ctx.Admits (.block b)) : Consistent (ctx.block b) := by
  refine (consistent_checkOwner _ _).bind fun _ owner => ?_
  obtain ⟨r, stored⟩ := h (checkOwner_eq_ok.mp owner)
  simp only [stored]
  split <;> simp

theorem consistent_module {m : ModuleRef} (h : ctx.Admits (.module m)) :
    Consistent (ctx.module m) := by
  refine (consistent_checkOwner _ _).bind fun _ owner => ?_
  obtain ⟨place, stored⟩ := h (checkOwner_eq_ok.mp owner)
  cases place <;> simp [stored]

theorem consistent_valueType {view : ValueView} {v : ValueRef} (h : ctx.Admits (.value view v)) :
    Consistent (ctx.valueType v) :=
  (consistent_value h).bind fun _ _ => consistent_ok

theorem consistent_valueName {view : ValueView} {v : ValueRef} (h : ctx.Admits (.value view v)) :
    Consistent (ctx.valueName v) :=
  (consistent_value h).bind fun _ _ => consistent_ok

theorem consistent_functionName {view : ValueView} {f : FunctionRef}
    (h : ctx.Admits (.value view f.value)) : Consistent (ctx.functionName f) :=
  (consistent_valueName h).bind fun _ _ => consistent_ok

theorem consistent_moduleName {m : ModuleRef} (h : ctx.Admits (.module m)) :
    Consistent (ctx.moduleName m) :=
  (consistent_module h).bind fun _ _ => consistent_ok

theorem consistent_describeType (wf : ctx.WellFormed) {view : TypeView} {t : TypeRef}
    (h : ctx.Admits (.type view t)) : Consistent (ctx.describeType t) :=
  (consistent_shape h).reads fun s read => ⟨_, wf.describeType_eq ⟨s, read⟩⟩

/-! ### Typed values -/

theorem consistent_viewed {α : Type} {view : ValueView} {v : ValueRef}
    (h : ctx.Admits (.value view v)) {next : ValueRecord → Checked α}
    (each : ∀ r, view.accepts r.kind = true → (next r).Consistent) :
    Consistent (ctx.value v >>= next) :=
  (consistent_value h).bind fun r read => each r (h.value read)

theorem consistent_global {g : GlobalRef} (h : ctx.Admits (.value .global g.value)) :
    Consistent (ctx.global g) := by
  refine consistent_viewed h fun r accepted => ?_
  cases kind : r.kind <;> simp [kind, ValueView.accepts] at accepted ⊢

theorem consistent_function {f : FunctionRef} (h : ctx.Admits (.value .function f.value)) :
    Consistent (ctx.function f) := by
  refine consistent_viewed h fun r accepted => ?_
  cases kind : r.kind <;> simp [kind, ValueView.accepts] at accepted ⊢

theorem consistent_argument {a : ArgumentRef} (h : ctx.Admits (.value .argument a.value)) :
    Consistent (ctx.argument a) := by
  refine consistent_viewed h fun r accepted => ?_
  cases kind : r.kind <;> simp [kind, ValueView.accepts] at accepted ⊢

theorem consistent_constantInt {c : ConstantIntRef} (h : ctx.Admits (.value .constantInt c.value)) :
    Consistent (ctx.constantInt c) := by
  refine consistent_viewed h fun r accepted => ?_
  cases kind : r.kind <;> simp [kind, ValueView.accepts] at accepted ⊢

def OfInstruction (view : ValueView) : Prop :=
  ∀ kind, view.accepts kind = true → ∃ i, kind = .instruction i

theorem ofInstruction_instruction : OfInstruction .instruction := by
  intro kind accepted
  cases kind <;> simp [ValueView.accepts] at accepted ⊢

theorem ofInstruction_call : OfInstruction .call := by
  intro kind accepted
  cases kind <;> simp [ValueView.accepts] at accepted ⊢

theorem ofInstruction_ret : OfInstruction .ret := by
  intro kind accepted
  cases kind <;> simp [ValueView.accepts] at accepted ⊢

theorem ofInstruction_branch : OfInstruction .branch := by
  intro kind accepted
  cases kind <;> simp [ValueView.accepts] at accepted ⊢

theorem consistent_instruction {view : ValueView} (of : OfInstruction view) {i : InstructionRef}
    (h : ctx.Admits (.value view i.value)) : Consistent (ctx.instruction i) := by
  refine consistent_viewed h fun r accepted => ?_
  obtain ⟨ir, kind⟩ := of r.kind accepted
  simp [kind]

theorem consistent_operation {view : ValueView} (of : OfInstruction view) {i : InstructionRef}
    (h : ctx.Admits (.value view i.value)) : Consistent (ctx.operation i) :=
  (consistent_instruction of h).bind fun _ _ => consistent_ok

theorem Admits.operation {view : ValueView} {i : InstructionRef} {o : Operation}
    (h : ctx.Admits (.value view i.value)) (read : ctx.operation i = .ok o) :
    ∃ parent, view.accepts (.instruction ⟨parent, o⟩) = true := by
  obtain ⟨ir, made, rfl⟩ := operation_eq_ok.mp read
  obtain ⟨r, held, kind⟩ := instruction_eq_ok.mp made
  exact ⟨ir.parent, kind ▸ h.value held⟩

theorem consistent_call {c : CallRef} (h : ctx.Admits (.value .call c.value)) :
    Consistent (ctx.call c) := by
  refine (consistent_operation (i := c.toInstruction) ofInstruction_call h).bind fun o read => ?_
  obtain ⟨_, accepted⟩ := Admits.operation (i := c.toInstruction) h read
  cases o <;> simp [ValueView.accepts, Operation.isCall] at accepted ⊢

theorem consistent_returnValue {r : ReturnRef} (h : ctx.Admits (.value .ret r.value)) :
    Consistent (ctx.returnValue r) := by
  refine (consistent_operation (i := r.toInstruction) ofInstruction_ret h).bind fun o read => ?_
  obtain ⟨_, accepted⟩ := Admits.operation (i := r.toInstruction) h read
  cases o <;> simp [ValueView.accepts, Operation.isReturn] at accepted ⊢

theorem consistent_branchSuccessors {b : BranchRef} (h : ctx.Admits (.value .branch b.value)) :
    Consistent (ctx.branchSuccessors b) := by
  refine (consistent_operation (i := b.toInstruction) ofInstruction_branch h).bind fun o read => ?_
  obtain ⟨_, accepted⟩ := Admits.operation (i := b.toInstruction) h read
  have branches : o.isBranch = true := accepted
  simp [branches]

/-! ### Typed types -/

theorem consistent_shaped {α : Type} {view : TypeView} {t : TypeRef}
    (h : ctx.Admits (.type view t)) {next : Shape → Checked α}
    (each : ∀ shape, view.accepts shape = true → (next shape).Consistent) :
    Consistent (ctx.shape t >>= next) := by
  refine (consistent_shape h).bind fun shape read => ?_
  obtain ⟨shape', read', accepted⟩ := h.type (shape_eq_ok.mp read).1
  obtain rfl := Checked.unique read read'
  exact each shape accepted

theorem consistent_integerBits {t : IntegerTypeRef} (h : ctx.Admits (.type .integer t.type)) :
    Consistent (ctx.integerBits t) := by
  refine consistent_shaped h fun shape accepted => ?_
  cases shape <;> simp [TypeView.accepts, Shape.isInteger] at accepted ⊢

theorem consistent_pointer {t : PointerTypeRef} (h : ctx.Admits (.type .pointer t.type)) :
    Consistent (ctx.pointer t) := by
  refine consistent_shaped h fun shape accepted => ?_
  cases shape <;> simp [TypeView.accepts, Shape.isPointer] at accepted ⊢

theorem consistent_array {t : ArrayTypeRef} (h : ctx.Admits (.type .array t.type)) :
    Consistent (ctx.array t) := by
  refine consistent_shaped h fun shape accepted => ?_
  cases shape <;> simp [TypeView.accepts, Shape.isArray] at accepted ⊢

theorem consistent_signature {t : FunctionTypeRef} (h : ctx.Admits (.type .function t.type)) :
    Consistent (ctx.signature t) := by
  refine consistent_shaped h fun shape accepted => ?_
  cases shape <;> simp [TypeView.accepts, Shape.isFunction] at accepted ⊢

end Context
end ModuleIR
