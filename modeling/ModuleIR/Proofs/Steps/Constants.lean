import ModuleIR.Build.Constants
import ModuleIR.Proofs.Steps.Interning

set_option autoImplicit false

/-!
# The steps that make types and constants

Each extends a well-formed context to a well-formed one, whatever handles it is given: a handle of
another context never passes, and the handle answered names what was asked for.
-/
namespace ModuleIR

theorem Checked.forM_eq_ok {α : Type} {f : α → Checked Unit} {xs : List α} {u : Unit} :
    xs.forM f = .ok u ↔ ∀ x ∈ xs, f x = .ok () := by
  induction xs with
  | nil => simp [List.forM]
  | cons x rest ih =>
    change (f x >>= fun _ => rest.forM f) = .ok u ↔ _
    rw [Checked.bind_eq_ok, List.forall_mem_cons, ← ih]
    exact ⟨fun ⟨_, first, others⟩ => ⟨first, others⟩, fun ⟨first, others⟩ => ⟨(), first, others⟩⟩

namespace Context

variable {ctx ctx' : Context}

theorem Admits.type {view : TypeView} {t : TypeRef} (h : ctx.Admits (.type view t))
    (owner : t.ctx = ctx.id) : ∃ shape, ctx.shape t = .ok shape ∧ view.accepts shape = true := by
  obtain ⟨shape, stored, accepted⟩ := h owner
  exact ⟨shape, shape_eq_ok.mpr ⟨owner, stored⟩, accepted⟩

theorem admits_of_hasType {t : TypeRef} (h : ctx.HasType t) : ctx.Admits (.type .any t) := by
  obtain ⟨shape, read⟩ := h
  exact fun _ => ⟨shape, (shape_eq_ok.mp read).2, rfl⟩

theorem Admits.value {view : ValueView} {v : ValueRef} {r : ValueRecord}
    (h : ctx.Admits (.value view v)) (read : ctx.value v = .ok r) :
    view.accepts r.kind = true := by
  obtain ⟨owner, stored, live⟩ := value_eq_ok.mp read
  obtain ⟨r', stored', accepted⟩ := h owner
  obtain rfl : r' = r := by simpa [stored'] using stored
  exact accepted.resolve_right live

theorem pointerParts_eq_ok {base : ConstantRef} {pointee : TypeRef} {space : AddressSpace} :
    ctx.pointerParts base = .ok (pointee, space) ↔
      ∃ r, ctx.value base.value = .ok r ∧ ctx.shape r.type = .ok (.pointer pointee space) := by
  unfold pointerParts
  simp only [Checked.bind_eq_ok, valueType_eq_ok]
  constructor
  · rintro ⟨ty, ⟨r, read, rfl⟩, shape, shaped, result⟩
    cases shape <;> simp_all
  · rintro ⟨r, read, shaped⟩
    exact ⟨_, ⟨r, read, rfl⟩, _, shaped, rfl⟩

theorem elementType_indices {position : Nat} {current target : TypeRef}
    {indices : List ConstantRef} (h : ctx.elementType position current indices = .ok target) :
    ∀ i ∈ indices, ∃ r n, ctx.value i.value = .ok r ∧ r.kind = .int n := by
  induction indices generalizing position current with
  | nil => simp
  | cons index rest ih =>
    simp only [elementType, Checked.bind_eq_ok] at h
    obtain ⟨r, read, h⟩ := h
    cases kind : r.kind with
    | int n =>
      rw [List.forall_mem_cons]
      refine ⟨⟨r, n, read, kind⟩, ?_⟩
      simp only [kind] at h
      split at h
      · exact ih h
      · obtain ⟨shape, _, h⟩ := Checked.bind_eq_ok.mp h
        cases shape <;> simp at h
        exact ih h
    | _ => simp [kind] at h

end Context

namespace Build

variable {ctx ctx' : Context}

open Context

theorem internType_spec (wf : ctx.WellFormed) {shape : Shape} {t : TypeRef}
    (admitted : ∀ u ∈ shape.inner, ctx.Admits (.type .any u))
    (run : (internType shape ctx).result = .ok (t, ctx')) :
    ctx.Extends ctx' ∧ ctx'.WellFormed ∧ ctx'.shape t = .ok shape := by
  simp only [internType, bind_eq_ok, read_eq_ok, update_eq_ok] at run
  obtain ⟨_, _, ⟨owned, rfl⟩, interned⟩ := run
  rw [Checked.forM_eq_ok] at owned
  refine Context.internType_spec wf (fun u mem => ?_) interned
  obtain ⟨known, read, _⟩ := (admitted u mem).type (checkOwner_eq_ok.mp (owned u mem))
  exact ⟨known, read⟩

theorem internType_runs {shape : Shape} (inner : ∀ t ∈ shape.inner, t.ctx = ctx.id) :
    ∃ t ctx', (internType shape ctx).result = .ok (t, ctx') :=
  ⟨_, _, bind_eq_ok.mpr ⟨(), ctx, read_eq_ok.mpr ⟨Checked.forM_eq_ok.mpr fun t mem =>
    checkOwner_eq_ok.mpr (inner t mem), rfl⟩, update_eq_ok.mpr rfl⟩⟩

theorem integerType_runs (ctx : Context) {bits : Nat} (valid : WideInt.validWidth bits = true) :
    ∃ t ctx', (integerType bits ctx).result = .ok (t, ctx') := by
  obtain ⟨t, ctx', run⟩ : ∃ t ctx', (internType (.integer bits) ctx).result = .ok (t, ctx') :=
    internType_runs (by simp [Shape.inner])
  exact ⟨⟨t⟩, ctx', bind_eq_ok.mpr ⟨(), ctx, require_eq_ok.mpr ⟨valid, rfl⟩,
    bind_eq_ok.mpr ⟨t, ctx', run, pure_eq_ok.mpr ⟨rfl, rfl⟩⟩⟩⟩

theorem integerType_spec (wf : ctx.WellFormed) {bits : Nat} {t : IntegerTypeRef}
    (run : (integerType bits ctx).result = .ok (t, ctx')) :
    ctx.Extends ctx' ∧ ctx'.WellFormed ∧ ctx'.shape t.type = .ok (.integer bits) := by
  simp only [integerType, bind_eq_ok, require_eq_ok, pure_eq_ok] at run
  obtain ⟨_, _, ⟨_, rfl⟩, type, mid, interned, rfl, rfl⟩ := run
  exact internType_spec wf (by simp [Shape.inner]) interned

theorem pointerType_spec (wf : ctx.WellFormed) {pointee : TypeRef} {space : AddressSpace}
    {t : PointerTypeRef} (run : (pointerType pointee space ctx).result = .ok (t, ctx')) :
    ctx.Extends ctx' ∧ ctx'.WellFormed ∧ ctx'.shape t.type = .ok (.pointer pointee space) ∧
      ctx.HasType pointee := by
  simp only [pointerType, bind_eq_ok, read_eq_ok, pure_eq_ok] at run
  obtain ⟨_, _, ⟨checked, rfl⟩, type, mid, interned, rfl, rfl⟩ := run
  obtain ⟨shape, read, _⟩ := Checked.bind_eq_ok.mp checked
  obtain ⟨extends', wf', shaped⟩ := internType_spec wf
    (by simpa [Shape.inner] using admits_of_hasType ⟨shape, read⟩) interned
  exact ⟨extends', wf', shaped, shape, read⟩

theorem arrayType_spec (wf : ctx.WellFormed) {element : TypeRef} {length : Nat}
    {t : ArrayTypeRef} (run : (arrayType element length ctx).result = .ok (t, ctx')) :
    ctx.Extends ctx' ∧ ctx'.WellFormed ∧ ctx'.shape t.type = .ok (.array element length) := by
  simp only [arrayType, bind_eq_ok, read_eq_ok, pure_eq_ok] at run
  obtain ⟨_, _, ⟨checked, rfl⟩, type, mid, interned, rfl, rfl⟩ := run
  obtain ⟨shape, read, _⟩ := Checked.bind_eq_ok.mp checked
  exact internType_spec wf (by simpa [Shape.inner] using admits_of_hasType ⟨shape, read⟩) interned

theorem functionType_spec (wf : ctx.WellFormed) {result : TypeRef} {params : List TypeRef}
    {variadic : Bool} {t : FunctionTypeRef} (admitted : ctx.Admits (.type .any result))
    (run : (functionType result params variadic ctx).result = .ok (t, ctx')) :
    ctx.Extends ctx' ∧ ctx'.WellFormed ∧
      ctx'.shape t.type = .ok (.function result params variadic) := by
  simp only [functionType, bind_eq_ok, read_eq_ok, pure_eq_ok] at run
  obtain ⟨_, _, ⟨checked, rfl⟩, type, mid, interned, rfl, rfl⟩ := run
  rw [Checked.forM_eq_ok] at checked
  refine internType_spec wf (fun u mem => ?_) interned
  rcases List.mem_cons.mp mem with rfl | param
  · exact admitted
  · obtain ⟨shape, read, _⟩ := Checked.bind_eq_ok.mp (checked u param)
    exact admits_of_hasType ⟨shape, read⟩

theorem constantInt_runs (ctx : Context) {n : WideInt} (valid : WideInt.validWidth n.bits = true) :
    ∃ c ctx', (constantInt n ctx).result = .ok (c, ctx') := by
  obtain ⟨t, mid, run⟩ := integerType_runs ctx valid
  exact ⟨_, _, bind_eq_ok.mpr ⟨t, mid, run,
    bind_eq_ok.mpr ⟨_, _, update_eq_ok.mpr rfl, pure_eq_ok.mpr ⟨rfl, rfl⟩⟩⟩⟩

theorem constantInt_spec (wf : ctx.WellFormed) {n : WideInt} {c : ConstantIntRef}
    (run : (constantInt n ctx).result = .ok (c, ctx')) :
    ctx.Extends ctx' ∧ ctx'.WellFormed ∧ ∃ r, ctx'.value c.value = .ok r ∧ r.kind = .int n := by
  simp only [constantInt, bind_eq_ok, update_eq_ok, pure_eq_ok] at run
  obtain ⟨type, mid, typed, v, _, interned, rfl, rfl⟩ := run
  obtain ⟨extends₁, wf₁, shaped⟩ := integerType_spec wf typed
  have sound : mid.ValueSound mid.values.size { type := type.type, kind := .int n } :=
    ⟨⟨_, shaped⟩, shaped⟩
  obtain ⟨extends₂, wf₂, r, read, key?⟩ :=
    Context.internConstant_spec wf₁ rfl sound interned
  refine ⟨extends₁.trans extends₂, wf₂, r, read, ?_⟩
  cases kind : r.kind <;> rw [kind] at key? <;> cases key?
  rfl

theorem checkWidth_eq_ok {bits : Nat} {u : Unit} :
    WideInt.checkWidth bits = .ok u ↔ WideInt.validWidth bits = true := by
  unfold WideInt.checkWidth
  split <;> simp_all

theorem constantSigned_spec (wf : ctx.WellFormed) {type : IntegerTypeRef} {value : Int64}
    {c : ConstantIntRef} (run : (constantSigned type value ctx).result = .ok (c, ctx')) :
    ctx.Extends ctx' ∧ ctx'.WellFormed ∧ ∃ r bits, ctx.integerBits type = .ok bits ∧
      WideInt.validWidth bits = true ∧ ctx'.value c.value = .ok r ∧
        r.kind = .int (.ofInt64 bits value) := by
  simp only [constantSigned, bind_eq_ok, read_eq_ok] at run
  obtain ⟨bits, _, ⟨typed, rfl⟩, n, _, ⟨converted, rfl⟩, made⟩ := run
  obtain ⟨_, valid, converted⟩ := Checked.bind_eq_ok.mp converted
  obtain rfl := Except.ok.inj converted
  obtain ⟨extends', wf', r, read, kind⟩ := constantInt_spec wf made
  exact ⟨extends', wf', r, bits, typed, checkWidth_eq_ok.mp valid, read, kind⟩

theorem constantBool_spec (wf : ctx.WellFormed) {value : Bool} {c : ConstantIntRef}
    (run : (constantBool value ctx).result = .ok (c, ctx')) :
    ctx.Extends ctx' ∧ ctx'.WellFormed ∧ ∃ r, ctx'.value c.value = .ok r ∧
      r.kind = .int (.ofUInt64 1 (if value then 1 else 0)) := by
  simp only [constantBool, bind_eq_ok, read_eq_ok] at run
  obtain ⟨n, _, ⟨converted, rfl⟩, made⟩ := run
  obtain ⟨_, _, converted⟩ := Checked.bind_eq_ok.mp converted
  obtain rfl := Except.ok.inj converted
  exact constantInt_spec wf made

theorem constantString_spec (wf : ctx.WellFormed) {text : String} {addNull : Bool}
    {c : ConstantRef} (run : (constantString text addNull ctx).result = .ok (c, ctx')) :
    ctx.Extends ctx' ∧ ctx'.WellFormed ∧
      ∃ r, ctx'.value c.value = .ok r ∧ r.kind = .bytes (stringBytes text addNull) := by
  simp only [constantString, bind_eq_ok, update_eq_ok, pure_eq_ok] at run
  obtain ⟨byte, mid, typed, array, mid', arrayed, v, _, interned, rfl, rfl⟩ := run
  obtain ⟨extends₁, wf₁, _⟩ := integerType_spec wf typed
  obtain ⟨extends₂, wf₂, shaped⟩ := arrayType_spec wf₁ arrayed
  have sound : mid'.ValueSound mid'.values.size
      { type := array.type, kind := .bytes (stringBytes text addNull) } := ⟨⟨_, shaped⟩, trivial⟩
  obtain ⟨extends₃, wf₃, r, read, key?⟩ :=
    Context.internConstant_spec wf₂ rfl sound interned
  refine ⟨(extends₁.trans extends₂).trans extends₃, wf₃, r, read, ?_⟩
  cases kind : r.kind <;> rw [kind] at key? <;> cases key?
  rfl

/-- The base of pointer arithmetic is found alive, and is a constant as its handle says. -/
theorem elementPtr_spec (wf : ctx.WellFormed) {base : ConstantRef} {indices : List ConstantRef}
    {inBounds : Bool} {c : ConstantRef} (admitted : ctx.Admits (.value .constant base.value))
    (run : (elementPtr base indices inBounds ctx).result = .ok (c, ctx')) :
    ctx.Extends ctx' ∧ ctx'.WellFormed ∧
      ∃ r source, ctx'.value c.value = .ok r ∧
        r.kind = .elementPtr ⟨source, base.value, indices.map (·.value), inBounds⟩ := by
  simp only [elementPtr, bind_eq_ok, read_eq_ok, update_eq_ok, pure_eq_ok] at run
  obtain ⟨⟨source, space⟩, _, ⟨parts, rfl⟩, target, _, ⟨walk, rfl⟩, ty, mid, typed, v, _,
    interned, rfl, rfl⟩ := run
  obtain ⟨baseRecord, baseRead, baseShape⟩ := pointerParts_eq_ok.mp parts
  obtain ⟨extends₁, wf₁, shaped, _⟩ := pointerType_spec wf typed
  have grown := extends₁.toGrows
  have ints := elementType_indices walk
  have inside : ∀ u r, ctx.value u = .ok r → u.index < mid.values.size := by
    intro u r read
    have before := (Array.getElem?_eq_some_iff.mp (value_eq_ok.mp read).2.1).1
    exact Nat.lt_of_lt_of_le before grown.values_size
  have element : mid.ElementPtrSound mid.values.size
      ⟨source, base.value, indices.map (·.value), inBounds⟩ :=
    { sourceType := grown.hasType (wf.hasType_inner baseShape (List.mem_singleton.mpr rfl))
      baseBefore := inside _ _ baseRead
      base := grown.constantValue ⟨baseRecord, baseRead, admitted.value baseRead⟩
      indicesBefore := by
        intro u mem
        obtain ⟨i, member, rfl⟩ := List.mem_map.mp mem
        obtain ⟨r, n, read, _⟩ := ints i member
        exact inside _ _ read
      indices := by
        intro u mem
        obtain ⟨i, member, rfl⟩ := List.mem_map.mp mem
        exact grown.intValue (ints i member) }
  have sound : mid.ValueSound mid.values.size
      { type := ty.type
        kind := .elementPtr ⟨source, base.value, indices.map (·.value), inBounds⟩ } :=
    ⟨⟨_, shaped⟩, element⟩
  obtain ⟨extends₂, wf₂, r, read, key?⟩ := Context.internConstant_spec wf₁ rfl sound interned
  refine ⟨extends₁.trans extends₂, wf₂, r, ?_⟩
  cases kind : r.kind with
  | elementPtr e =>
    obtain ⟨source', base', indices', inBounds'⟩ := e
    rw [kind] at key?
    obtain ⟨rfl, rfl, rfl⟩ := ConstantKey.elementPtr.inj (Option.some.inj key?)
    exact ⟨source', read, rfl⟩
  | _ =>
    rw [kind] at key?
    cases key?

end Build
end ModuleIR
