import ModuleIR.Build.Constants
import ModuleIR.Proofs.Arena.Reads

set_option autoImplicit false

/-!
# Walks through arrays

The indices of pointer arithmetic step over the pointer first and into an array each time after that.
So the type they reach depends on their number only.
-/
namespace ModuleIR.Context

/-- So many steps into arrays lead from a type to another. -/
inductive Reaches (ctx : Context) : Nat → TypeRef → TypeRef → Prop
  | here {t : TypeRef} : Reaches ctx 0 t t
  | into {steps length : Nat} {t element target : TypeRef}
      (array : ctx.shape t = .ok (.array element length)) (rest : Reaches ctx steps element target) :
      Reaches ctx (steps + 1) t target

variable {ctx ctx' : Context}

theorem Reaches.mono (shapes : ∀ t s, ctx.shape t = .ok s → ctx'.shape t = .ok s) {steps : Nat}
    {t target : TypeRef} (h : ctx.Reaches steps t target) : ctx'.Reaches steps t target := by
  induction h with
  | here => exact .here
  | into array _ ih => exact .into (shapes _ _ array) ih

theorem Reaches.unique {steps : Nat} {t target target' : TypeRef} (h : ctx.Reaches steps t target)
    (h' : ctx.Reaches steps t target') : target = target' := by
  induction h with
  | here =>
    cases h'
    rfl
  | into array _ ih =>
    cases h' with
    | into array' rest =>
      obtain ⟨rfl, rfl⟩ := Shape.array.inj (Checked.unique array array')
      exact ih rest

theorem reaches_add {first second : Nat} {t target : TypeRef} :
    ctx.Reaches (first + second) t target ↔
      ∃ mid, ctx.Reaches first t mid ∧ ctx.Reaches second mid target := by
  induction first generalizing t with
  | zero =>
    rw [Nat.zero_add]
    constructor
    · exact fun walk => ⟨t, .here, walk⟩
    · rintro ⟨mid, none, walk⟩
      cases none
      exact walk
  | succ first ih =>
    rw [Nat.add_right_comm]
    constructor
    · intro walk
      cases walk with
      | into array rest =>
        obtain ⟨mid, front, back⟩ := ih.mp rest
        exact ⟨mid, .into array front, back⟩
    · rintro ⟨mid, front, back⟩
      cases front with
      | into array rest => exact .into array (ih.mpr ⟨mid, rest, back⟩)

theorem reaches_of_elementType_succ {position : Nat} {current target : TypeRef}
    {indices : List ConstantRef}
    (walk : ctx.elementType (position + 1) current indices = .ok target) :
    ctx.Reaches indices.length current target := by
  induction indices generalizing position current with
  | nil =>
    obtain rfl := Except.ok.inj walk
    exact .here
  | cons index rest ih =>
    simp only [elementType, Checked.bind_eq_ok] at walk
    obtain ⟨r, _, walk⟩ := walk
    cases kind : r.kind with
    | int n =>
      simp only [kind, Nat.add_one_ne_zero, if_false, Checked.bind_eq_ok] at walk
      obtain ⟨shape, read, walk⟩ := walk
      cases shape with
      | array element length => exact .into read (ih walk)
      | _ => simp at walk
    | _ =>
      simp only [kind] at walk
      cases walk

theorem reaches_of_elementType {current target : TypeRef} {indices : List ConstantRef}
    (walk : ctx.elementType 0 current indices = .ok target) :
    ctx.Reaches (indices.length - 1) current target := by
  cases indices with
  | nil =>
    obtain rfl := Except.ok.inj walk
    exact .here
  | cons index rest =>
    simp only [elementType, Checked.bind_eq_ok] at walk
    obtain ⟨r, _, walk⟩ := walk
    cases kind : r.kind with
    | int n =>
      simp only [kind, if_true] at walk
      exact reaches_of_elementType_succ walk
    | _ =>
      simp only [kind] at walk
      cases walk

end ModuleIR.Context
