import ModuleIR.Proofs.Steps.Constants

set_option autoImplicit false

/-!
# What making types and constants obeys

Types and constants come into a context by being interned, and in no other way. What a type is made of
is checked just before. So a preorder that interning obeys, of types that are made of what they may be
made of, is obeyed by every step that makes types and constants.
-/
namespace ModuleIR

namespace Context

def FirstClass (ctx : Context) (t : TypeRef) : Prop :=
  ∃ shape, ctx.shape t = .ok shape ∧ shape.isFirstClass = true

def Pointee (ctx : Context) (t : TypeRef) : Prop :=
  ∃ shape, ctx.shape t = .ok shape ∧ shape.isPointee = true

/-- What a shape is made of is as it has to be: only the result of a function type may be anything. -/
def Composes (ctx : Context) : Shape → Prop
  | .pointer pointee _ => ctx.Pointee pointee
  | .array element _ => ctx.FirstClass element
  | .function _ params _ => ∀ p ∈ params, ctx.FirstClass p
  | .void | .label | .integer _ => True

theorem composes_of_flat {ctx : Context} {shape : Shape} (flat : shape.inner = []) :
    ctx.Composes shape := by
  cases shape with
  | void | label | integer => trivial
  | pointer | array | function => cases flat

end Context

namespace Build

theorem judged_of_check {ctx : Context} {t : TypeRef} {judge : Shape → Bool}
    {violation : String → Violation}
    (checked : (do if !judge (← ctx.shape t) then throw (violation (← ctx.describeType t))) =
      Except.ok ()) :
    ∃ shape, ctx.shape t = .ok shape ∧ judge shape = true := by
  obtain ⟨shape, read, judged⟩ := Checked.bind_eq_ok.mp checked
  refine ⟨shape, read, ?_⟩
  cases accepted : judge shape with
  | true => rfl
  | false => simp [accepted] at judged

/-- What is said of interning a type made of what it may be made of, or a constant under its
content. -/
structure Interning (R : Context → Context → Prop) : Prop where
  types : ∀ ctx shape, ctx.Composes shape → R ctx (ctx.internType shape).2
  constants : ∀ ctx key record, record.name = none → record.kind.key? = some key →
    R ctx (ctx.internConstant key record).2

namespace Interning

variable {R : Context → Context → Prop} [Std.Refl R] [IsTrans Context R] (interning : Interning R)
include interning

theorem internType {shape : Shape} (flat : shape.inner = []) : Obeys R (Build.internType shape) :=
  .bind (.read _) fun _ => .update fun ctx => interning.types ctx shape (Context.composes_of_flat flat)

omit [Std.Refl R] [IsTrans Context R] in
theorem checkedType {α : Type} {shape : Shape} {check : Context → Checked Unit} {view : TypeRef → α}
    (composes : ∀ ctx, check ctx = .ok () → ctx.Composes shape) :
    Obeys R (do Build.read check; return view (← Build.internType shape)) := by
  intro ctx _ ctx' run
  simp only [Build.internType, bind_eq_ok, read_eq_ok, update_eq_ok, pure_eq_ok] at run
  obtain ⟨_, _, ⟨checked, rfl⟩, t, _, ⟨_, _, ⟨_, rfl⟩, interned⟩, _, rfl⟩ := run
  have done := interning.types ctx shape (composes ctx checked)
  rwa [interned] at done

theorem integerType (bits : Nat) : Obeys R (Build.integerType bits) :=
  .bind (.require _ _) fun _ => .bind (interning.internType rfl) fun _ => .pure _

omit [Std.Refl R] [IsTrans Context R] in
theorem pointerType (pointee : TypeRef) (space : AddressSpace) :
    Obeys R (Build.pointerType pointee space) :=
  interning.checkedType fun _ checked => judged_of_check checked

omit [Std.Refl R] [IsTrans Context R] in
theorem arrayType (element : TypeRef) (length : Nat) : Obeys R (Build.arrayType element length) :=
  interning.checkedType fun _ checked => judged_of_check checked

omit [Std.Refl R] [IsTrans Context R] in
theorem functionType (result : TypeRef) (params : List TypeRef) (variadic : Bool) :
    Obeys R (Build.functionType result params variadic) :=
  interning.checkedType fun _ checked p mem =>
    judged_of_check (Checked.forM_eq_ok.mp checked p mem)

omit [Std.Refl R] [IsTrans Context R] in
theorem internConstant {key : ConstantKey} {record : ValueRecord} (unnamed : record.name = none)
    (content : record.kind.key? = some key) : Obeys R (update (·.internConstant key record)) :=
  .update fun ctx => interning.constants ctx key record unnamed content

theorem constantInt (n : WideInt) : Obeys R (Build.constantInt n) :=
  .bind (interning.integerType _) fun _ => .bind (interning.internConstant rfl rfl) fun _ => .pure _

theorem constantSigned (type : IntegerTypeRef) (value : Int64) :
    Obeys R (Build.constantSigned type value) :=
  .bind (.read _) fun _ => .bind (.read _) fun _ => interning.constantInt _

theorem constantBool (value : Bool) : Obeys R (Build.constantBool value) :=
  .bind (.read _) fun _ => interning.constantInt _

theorem constantString (text : String) (addNull : Bool) :
    Obeys R (Build.constantString text addNull) :=
  .bind (interning.integerType _) fun _ => .bind (interning.arrayType _ _) fun _ =>
    .bind (interning.internConstant rfl rfl) fun _ => .pure _

theorem elementPtr (base : ConstantRef) (indices : List ConstantRef) (inBounds : Bool) :
    Obeys R (Build.elementPtr base indices inBounds) :=
  .bind (.read _) fun _ => .bind (.read _) fun _ => .bind (interning.pointerType _ _) fun _ =>
    .bind (interning.internConstant rfl rfl) fun _ => .pure _

end Interning

end Build
end ModuleIR
