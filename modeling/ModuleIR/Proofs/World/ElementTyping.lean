import ModuleIR.Proofs.World.ValueTypes

set_option autoImplicit false

/-!
# Types of pointers into arrays

Pointer arithmetic succeeds exactly when its base is a pointer, its indices are integers and what is
pointed to is arrays as deep as indices follow the first. Then it is a pointer to the element that so
many steps reach. Walks can be made in stages: the pointer to an element in the middle leads on to
whatever one walk leads to.
-/
namespace ModuleIR

namespace Context

def PointsTo (ctx : Context) (v : ValueRef) (pointee : TypeRef) (space : AddressSpace) : Prop :=
  ∃ r, ctx.value v = .ok r ∧ ctx.shape r.type = .ok (.pointer pointee space)

def IntegerConstant (ctx : Context) (c : ConstantRef) : Prop :=
  ∃ r n, ctx.value c.value = .ok r ∧ r.kind = .int n

/-- What the types of pointers rest on: types are made of what they may be made of, and values are well
made. -/
structure TypedArena (ctx : Context) : Prop where
  wellFormed : ctx.WellFormed
  wellMade : ctx.AllWellMade
  composed : ∀ t shape, ctx.shape t = .ok shape → ctx.Composes shape

variable {ctx ctx' : Context} {v : ValueRef} {source source' target : TypeRef}
  {space space' : AddressSpace} {steps position : Nat} {indices : List ConstantRef} {c : ConstantRef}

/-! ### Walks -/

theorem elementType_of_reaches_succ (ints : ∀ i ∈ indices, ctx.IntegerConstant i)
    (walk : ctx.Reaches indices.length source target) :
    ctx.elementType (position + 1) source indices = .ok target := by
  induction indices generalizing position source with
  | nil =>
    cases walk
    rfl
  | cons index rest ih =>
    cases walk with
    | into array walk =>
      obtain ⟨r, n, read, kind⟩ := ints index List.mem_cons_self
      have others : ctx.elementType (position + 2) _ rest = .ok target :=
        ih (fun i mem => ints i (List.mem_cons_of_mem _ mem)) walk
      simp [elementType, read, kind, array, others]

/-- The indices of pointer arithmetic are integers, and walk one step each but the first. -/
theorem elementType_eq_ok : ctx.elementType 0 source indices = .ok target ↔
    (∀ i ∈ indices, ctx.IntegerConstant i) ∧ ctx.Reaches (indices.length - 1) source target := by
  constructor
  · exact fun walk => ⟨elementType_indices walk, reaches_of_elementType walk⟩
  · rintro ⟨ints, walk⟩
    cases indices with
    | nil =>
      cases walk
      rfl
    | cons index rest =>
      obtain ⟨r, n, read, kind⟩ := ints index List.mem_cons_self
      have others : ctx.elementType 1 source rest = .ok target :=
        elementType_of_reaches_succ (fun i mem => ints i (List.mem_cons_of_mem _ mem)) walk
      simp [elementType, read, kind, others]

theorem Reaches.pointee (composed : ∀ t shape, ctx.shape t = .ok shape → ctx.Composes shape)
    (walk : ctx.Reaches steps source target) (start : ctx.Pointee source) : ctx.Pointee target := by
  induction walk with
  | here => exact start
  | into array _ ih => exact ih (composed _ _ array : ctx.FirstClass _).pointee

theorem Reaches.of_grow (g : ctx.Grows ctx') (wf : ctx.WellFormed)
    (walk : ctx'.Reaches steps source target) (start : ctx.HasType source) :
    ctx.Reaches steps source target := by
  induction walk with
  | here => exact .here
  | into array _ ih =>
    obtain ⟨shape, read⟩ := start
    obtain rfl := Checked.unique array (g.shape read)
    exact .into read (ih (wf.hasType_inner read List.mem_cons_self))

/-! ### Pointers and integers -/

theorem PointsTo.unique (h : ctx.PointsTo v source space) (h' : ctx.PointsTo v source' space') :
    source = source' ∧ space = space' := by
  obtain ⟨r, read, shaped⟩ := h
  obtain ⟨r', read', shaped'⟩ := h'
  obtain rfl := Checked.unique read read'
  exact Shape.pointer.inj (Checked.unique shaped shaped')

theorem PointsTo.grow (g : ctx.Grows ctx') (h : ctx.PointsTo v source space) :
    ctx'.PointsTo v source space := by
  obtain ⟨r, read, shaped⟩ := h
  obtain ⟨r', read', type, _⟩ := g.value read
  exact ⟨r', read', type ▸ g.shape shaped⟩

theorem PointsTo.pointee (h : ctx.PointsTo v source space)
    (composed : ∀ t shape, ctx.shape t = .ok shape → ctx.Composes shape) : ctx.Pointee source := by
  obtain ⟨r, _, shaped⟩ := h
  exact composed _ _ shaped

theorem PointsTo.sameType (wf : ctx.WellFormed) {u : ValueRef} (h : ctx.PointsTo v source space)
    (h' : ctx.PointsTo u source space) :
    ∃ t, ctx.valueType v = .ok t ∧ ctx.valueType u = .ok t := by
  obtain ⟨r, read, shaped⟩ := h
  obtain ⟨r', read', shaped'⟩ := h'
  have same : r'.type = r.type := Option.some.inj
    (((wf.typeTable _ _).mpr shaped').symm.trans ((wf.typeTable _ _).mpr shaped))
  exact ⟨r.type, valueType_eq_ok.mpr ⟨r, read, rfl⟩, valueType_eq_ok.mpr ⟨r', read', same⟩⟩

theorem IntegerConstant.grow (g : ctx.Grows ctx') (h : ctx.IntegerConstant c) :
    ctx'.IntegerConstant c := g.intValue h

theorem IntegerConstant.of_grow (g : ctx.Grows ctx') (h : ctx'.IntegerConstant c)
    (live : ∃ r, ctx.value c.value = .ok r) : ctx.IntegerConstant c := by
  obtain ⟨r, read⟩ := live
  obtain ⟨r', n, read', kind'⟩ := h
  obtain ⟨r'', again, _, step⟩ := g.value read
  obtain rfl := Checked.unique read' again
  refine ⟨r, n, read, ?_⟩
  rw [kind'] at step
  cases kind : r.kind <;> rw [kind] at step <;> cases step
  rfl

theorem AllWellMade.builds (builds : ctx.Builds ctx') (h : ctx.AllWellMade) : ctx'.AllWellMade := by
  induction builds with
  | refl => exact h
  | tail _ step ih => exact ih.elementary step

end Context

namespace Build

open Context

def elementPtrInStages (base : ConstantRef) (first second : List ConstantRef)
    (inBounds inBounds' : Bool) : Build ConstantRef := do
  let middle ← elementPtr base first inBounds
  elementPtr middle second inBounds'

variable {ctx ctx' : Context} {base c i z : ConstantRef} {indices is js : List ConstantRef}
  {inBounds inBounds' : Bool} {source target : TypeRef} {space : AddressSpace}

theorem elementPtr_runs_iff (composed : ∀ t shape, ctx.shape t = .ok shape → ctx.Composes shape)
    (base : ConstantRef) (indices : List ConstantRef) (inBounds : Bool) :
    (∃ c ctx', (elementPtr base indices inBounds ctx).result = .ok (c, ctx')) ↔
      ∃ source space target, ctx.PointsTo base.value source space ∧
        (∀ i ∈ indices, ctx.IntegerConstant i) ∧ ctx.Reaches (indices.length - 1) source target := by
  constructor
  · rintro ⟨c, ctx', run⟩
    simp only [elementPtr, bind_eq_ok, read_eq_ok] at run
    obtain ⟨⟨source, space⟩, _, ⟨parts, rfl⟩, target, _, ⟨walk, rfl⟩, _⟩ := run
    exact ⟨source, space, target, pointerParts_eq_ok.mp parts, elementType_eq_ok.mp walk⟩
  · rintro ⟨source, space, target, pointed, walk⟩
    obtain ⟨shape, shaped, accepted⟩ := walk.2.pointee composed (pointed.pointee composed)
    obtain ⟨ty, mid, typed⟩ := pointerType_runs shaped accepted space
    simp only [elementPtr, bind_eq_ok, read_eq_ok, update_eq_ok, pure_eq_ok]
    exact ⟨_, _, ⟨source, space⟩, ctx, ⟨pointerParts_eq_ok.mpr pointed, rfl⟩, target, ctx,
      ⟨elementType_eq_ok.mpr walk, rfl⟩, ty, mid, typed, _, _, rfl, rfl, rfl⟩

/-- The result points to the element in the space of the base, whether it is made or found. -/
theorem elementPtr_typed (h : ctx.TypedArena)
    (constant : ∃ r, ctx.value base.value = .ok r ∧ r.kind.isConstant = true)
    (run : (elementPtr base indices inBounds ctx).result = .ok (c, ctx'))
    (pointed : ctx.PointsTo base.value source space)
    (walk : ctx.Reaches (indices.length - 1) source target) :
    ctx.Grows ctx' ∧ ctx'.TypedArena ∧
      (∃ r, ctx'.value c.value = .ok r ∧ r.kind.isConstant = true) ∧
      ctx'.PointsTo c.value target space := by
  have admitted : ctx.Admits (.value .constant base.value) := by
    obtain ⟨r, read, accepted⟩ := constant
    exact fun _ => ⟨r, (value_eq_ok.mp read).2.1, .inl accepted⟩
  obtain ⟨extends', wf', r, source', read, kind⟩ := elementPtr_spec h.wellFormed admitted run
  have growth := extends'.toGrows
  have made := h.wellMade.builds (elementPtr_builds h.wellFormed run)
  have composed := (interning.elementPtr base indices inBounds ctx c ctx' run).composed h.composed
  have suits := (made c.value r read).1
  rw [kind] at suits
  obtain ⟨br, element, space', based, pointed', walk', shaped⟩ := suits
  obtain ⟨rfl, rfl⟩ := (pointed.grow growth).unique ⟨br, based, pointed'⟩
  rw [List.length_map] at walk'
  obtain rfl := walk'.unique (walk.mono fun _ _ => growth.shape)
  exact ⟨growth, ⟨wf', made, composed⟩, ⟨r, read, by rw [kind]; rfl⟩, r, read, shaped⟩

/-! ### Two stages -/

section Stages

variable (h : ctx.TypedArena)
  (constant : ∃ r, ctx.value base.value = .ok r ∧ r.kind.isConstant = true)
include h constant

theorem elementPtrInStages_typed
    (run : (elementPtrInStages base (i :: is) (z :: js) inBounds inBounds' ctx).result = .ok (c, ctx'))
    (pointed : ctx.PointsTo base.value source space)
    (walk : ctx.Reaches (is.length + js.length) source target) :
    ctx.Grows ctx' ∧ ctx'.TypedArena ∧ ctx'.PointsTo c.value target space := by
  obtain ⟨middle, mid, first, second⟩ := bind_eq_ok.mp run
  obtain ⟨element, front, back⟩ := reaches_add.mp walk
  obtain ⟨growth, typed, constant', pointed'⟩ := elementPtr_typed h constant first pointed front
  obtain ⟨growth', typed', -, pointed''⟩ := elementPtr_typed typed constant' second pointed'
    (back.mono fun _ _ => growth.shape)
  exact ⟨growth.trans growth', typed', pointed''⟩

/-- Two stages can be walked exactly when one can, if the second stays at the element first. -/
theorem elementPtrInStages_runs_iff (stay : ctx.IntegerConstant z)
    (live : ∀ j ∈ js, ∃ r, ctx.value j.value = .ok r) (i : ConstantRef) (is : List ConstantRef)
    (inBounds inBounds' : Bool) :
    (∃ c ctx', (elementPtrInStages base (i :: is) (z :: js) inBounds inBounds' ctx).result =
        .ok (c, ctx')) ↔
      ∃ source space target, ctx.PointsTo base.value source space ∧
        (∀ k ∈ i :: (is ++ js), ctx.IntegerConstant k) ∧
        ctx.Reaches (is.length + js.length) source target := by
  constructor
  · rintro ⟨c, ctx', run⟩
    obtain ⟨middle, mid, first, second⟩ := bind_eq_ok.mp run
    obtain ⟨source, space, element, pointed, ints, front⟩ :=
      (elementPtr_runs_iff h.composed _ _ _).mp ⟨_, _, first⟩
    obtain ⟨growth, typed, _, pointed'⟩ := elementPtr_typed h constant first pointed front
    obtain ⟨source', space', target, pointed'', ints', back⟩ :=
      (elementPtr_runs_iff typed.composed _ _ _).mp ⟨_, _, second⟩
    obtain ⟨rfl, rfl⟩ := pointed'.unique pointed''
    obtain ⟨shape, shaped, _⟩ := front.pointee h.composed (pointed.pointee h.composed)
    refine ⟨source, space, target, pointed, ?_,
      reaches_add.mpr ⟨element, front, back.of_grow growth h.wellFormed ⟨shape, shaped⟩⟩⟩
    rw [← List.cons_append]
    exact List.forall_mem_append.mpr ⟨ints, fun j mem =>
      (ints' j (List.mem_cons_of_mem _ mem)).of_grow growth (live j mem)⟩
  · rintro ⟨source, space, target, pointed, ints, walk⟩
    rw [← List.cons_append, List.forall_mem_append] at ints
    obtain ⟨element, front, back⟩ := reaches_add.mp walk
    obtain ⟨middle, mid, first⟩ := (elementPtr_runs_iff h.composed base (i :: is) inBounds).mpr
      ⟨source, space, element, pointed, ints.1, front⟩
    obtain ⟨growth, typed, _, pointed'⟩ := elementPtr_typed h constant first pointed front
    have ints' : ∀ j ∈ z :: js, mid.IntegerConstant j := List.forall_mem_cons.mpr
      ⟨stay.grow growth, fun j mem => (ints.2 j mem).grow growth⟩
    obtain ⟨c, ctx', second⟩ := (elementPtr_runs_iff typed.composed middle (z :: js) inBounds').mpr
      ⟨element, space, target, pointed', ints', back.mono fun _ _ => growth.shape⟩
    exact ⟨c, ctx', bind_eq_ok.mpr ⟨middle, mid, first, second⟩⟩

end Stages

end Build

namespace World

open Context Build

variable {w : World} {ctx : Context} {base : ConstantRef}

theorem Reachable.typedArena (reachable : w.Reachable) (mem : ctx ∈ w.contexts) : ctx.TypedArena where
  wellFormed := reachable.sound.wellFormed ctx mem
  wellMade := reachable.allWellMade ctx mem
  composed := (reachable.typed ctx mem).composed

/-- In every reachable world pointer arithmetic over a live constant succeeds exactly when it is a
pointer, all indices are integer constants and the pointee is arrays at least as deep as indices follow
the first. It points to the element behind so many steps, in the space of the base; with one index or
none it has the type of the base. Two stages, of which the second stays at the element with its first
index, succeed exactly when one stage does, and give the same type. -/
theorem elementPtr_typing (reachable : w.Reachable) (mem : ctx ∈ w.contexts)
    (constant : ∃ r, ctx.value base.value = .ok r ∧ r.kind.isConstant = true) :
    (∀ indices inBounds,
      ((∃ c ctx', (elementPtr base indices inBounds ctx).result = .ok (c, ctx')) ↔
        ∃ source space target, ctx.PointsTo base.value source space ∧
          (∀ i ∈ indices, ctx.IntegerConstant i) ∧
          ctx.Reaches (indices.length - 1) source target) ∧
      ∀ c ctx', (elementPtr base indices inBounds ctx).result = .ok (c, ctx') →
        (∃ source space target, ctx.PointsTo base.value source space ∧
          ctx.Reaches (indices.length - 1) source target ∧ ctx'.PointsTo c.value target space) ∧
        (indices.length ≤ 1 → ctx'.valueType c.value = ctx.valueType base.value)) ∧
    ∀ i is z js inBounds inBounds' inBounds'', ctx.IntegerConstant z →
      (∀ j ∈ js, ∃ r, ctx.value j.value = .ok r) →
      ((∃ c ctx', (elementPtrInStages base (i :: is) (z :: js) inBounds inBounds' ctx).result =
          .ok (c, ctx')) ↔
        ∃ c ctx', (elementPtr base (i :: (is ++ js)) inBounds'' ctx).result = .ok (c, ctx')) ∧
      ∀ c c' mid ctx',
        ((elementPtrInStages base (i :: is) (z :: js) inBounds inBounds' ctx).result = .ok (c, mid) ∧
            (elementPtr base (i :: (is ++ js)) inBounds'' mid).result = .ok (c', ctx') ∨
          (elementPtr base (i :: (is ++ js)) inBounds'' ctx).result = .ok (c', mid) ∧
            (elementPtrInStages base (i :: is) (z :: js) inBounds inBounds' mid).result =
              .ok (c, ctx')) →
        ∃ t, ctx'.valueType c.value = .ok t ∧ ctx'.valueType c'.value = .ok t := by
  have h := reachable.typedArena mem
  refine ⟨fun indices inBounds => ⟨elementPtr_runs_iff h.composed base indices inBounds,
    fun c ctx' run => ?_⟩, fun i is z js inBounds inBounds' inBounds'' stay live => ?_⟩
  · obtain ⟨source, space, target, pointed, _, walk⟩ :=
      (elementPtr_runs_iff h.composed _ _ _).mp ⟨c, ctx', run⟩
    obtain ⟨growth, typed, _, pointed'⟩ := elementPtr_typed h constant run pointed walk
    refine ⟨⟨source, space, target, pointed, walk, pointed'⟩, fun few => ?_⟩
    rw [Nat.sub_eq_zero_of_le few] at walk
    cases walk
    obtain ⟨t, of, same⟩ := (pointed.grow growth).sameType typed.wellFormed pointed'
    obtain ⟨r, read, _⟩ := pointed
    obtain ⟨t', known⟩ : ∃ t, ctx.valueType base.value = .ok t :=
      ⟨r.type, valueType_eq_ok.mpr ⟨r, read, rfl⟩⟩
    rw [same, known, Checked.unique of (growth.valueType known)]
  · have stages := elementPtrInStages_runs_iff h constant stay live i is inBounds inBounds'
    have whole := elementPtr_runs_iff h.composed base (i :: (is ++ js)) inBounds''
    have steps : (i :: (is ++ js)).length - 1 = is.length + js.length := by simp
    rw [steps] at whole
    refine ⟨stages.trans whole.symm, ?_⟩
    rintro c c' mid ctx' (⟨first, second⟩ | ⟨first, second⟩)
    · obtain ⟨source, space, target, pointed, _, walk⟩ := stages.mp ⟨c, mid, first⟩
      obtain ⟨growth, typed, pointed'⟩ := elementPtrInStages_typed h constant first pointed walk
      obtain ⟨growth', typed', _, pointed''⟩ := elementPtr_typed typed (growth.constantValue constant)
        second (pointed.grow growth) (steps ▸ walk.mono fun _ _ => growth.shape)
      exact (pointed'.grow growth').sameType typed'.wellFormed pointed''
    · obtain ⟨source, space, target, pointed, _, walk⟩ := whole.mp ⟨c', mid, first⟩
      obtain ⟨growth, typed, constant', pointed'⟩ :=
        elementPtr_typed h constant first pointed (steps ▸ walk)
      obtain ⟨growth', typed', pointed''⟩ := elementPtrInStages_typed typed
        (growth.constantValue constant) second (pointed.grow growth)
        (walk.mono fun _ _ => growth.shape)
      exact pointed''.sameType typed'.wellFormed (pointed'.grow growth')

/-- A global that is two arrays of three bytes each, and an index. -/
def nestedArrays : World := after [.context, .request 0 (.integerType 8),
  .upcast (.type .any ⟨⟨1⟩, 0⟩), .request 0 (.arrayType ⟨⟨1⟩, 0⟩ 3), .upcast (.type .any ⟨⟨1⟩, 1⟩),
  .request 0 (.arrayType ⟨⟨1⟩, 1⟩ 2), .upcast (.type .any ⟨⟨1⟩, 2⟩), .request 0 (.createModule "m"),
  .request 0 (.createGlobal ⟨⟨1⟩, 0⟩ { type := ⟨⟨1⟩, 2⟩, space := .const }),
  .request 0 (.constantInt (.ofUInt64 32 1) (.unsigned rfl 1))]

/-- Three indices reach a byte, in one stage or in two. -/
theorem nestedArrays_byte : ∃ ctx ∈ nestedArrays.contexts,
    (∃ r, ctx.value ⟨⟨1⟩, 0⟩ = .ok r ∧ r.kind.isConstant = true) ∧
    ctx.IntegerConstant ⟨⟨⟨1⟩, 1⟩⟩ ∧
    (∃ c ctx', (elementPtr ⟨⟨⟨1⟩, 0⟩⟩ [⟨⟨⟨1⟩, 1⟩⟩, ⟨⟨⟨1⟩, 1⟩⟩, ⟨⟨⟨1⟩, 1⟩⟩] true ctx).result =
      .ok (c, ctx') ∧ ctx'.PointsTo c.value ⟨⟨1⟩, 0⟩ .const) ∧
    ∃ c ctx', (elementPtrInStages ⟨⟨⟨1⟩, 0⟩⟩ [⟨⟨⟨1⟩, 1⟩⟩, ⟨⟨⟨1⟩, 1⟩⟩] [⟨⟨⟨1⟩, 1⟩⟩, ⟨⟨⟨1⟩, 1⟩⟩] true
      false ctx).result = .ok (c, ctx') := by
  have computed : (nestedArrays.contexts[0]?).any (fun ctx : Context =>
      (ctx.value ⟨⟨1⟩, 0⟩).toOption.any (fun r => r.kind.isConstant = true ∧
        ctx.shape r.type = .ok (.pointer ⟨⟨1⟩, 2⟩ .const)) ∧
      (ctx.value ⟨⟨1⟩, 1⟩).map (·.kind) = .ok (.int (.ofUInt64 32 1)) ∧
      ctx.shape ⟨⟨1⟩, 2⟩ = .ok (.array ⟨⟨1⟩, 1⟩ 2) ∧
      ctx.shape ⟨⟨1⟩, 1⟩ = .ok (.array ⟨⟨1⟩, 0⟩ 3)) = true := by decide +kernel
  obtain ⟨ctx, found, computed⟩ := (Option.any_eq_true _ _).mp computed
  obtain ⟨based, index, rows, bytes⟩ := of_decide_eq_true computed
  obtain ⟨r, read, based⟩ := (Option.any_eq_true _ _).mp based
  obtain ⟨accepted, shaped⟩ := of_decide_eq_true based
  obtain ⟨ir, held, kind⟩ := Checked.map_eq_ok.mp index
  have mem : ctx ∈ nestedArrays.contexts := List.mem_of_getElem? found
  have constant : ∃ r, ctx.value ⟨⟨1⟩, 0⟩ = .ok r ∧ r.kind.isConstant = true :=
    ⟨r, Checked.toOption_eq_some.mp read, accepted⟩
  have pointed : ctx.PointsTo ⟨⟨1⟩, 0⟩ ⟨⟨1⟩, 2⟩ .const :=
    ⟨r, Checked.toOption_eq_some.mp read, shaped⟩
  have integer : ctx.IntegerConstant ⟨⟨⟨1⟩, 1⟩⟩ := ⟨ir, _, held, kind⟩
  have walk : ctx.Reaches 2 ⟨⟨1⟩, 2⟩ ⟨⟨1⟩, 0⟩ := .into rows (.into bytes .here)
  obtain ⟨one, two⟩ :=
    @elementPtr_typing _ _ ⟨⟨⟨1⟩, 0⟩⟩ (reachable_after (by decide +kernel)) mem constant
  obtain ⟨runs, typed⟩ := one [⟨⟨⟨1⟩, 1⟩⟩, ⟨⟨⟨1⟩, 1⟩⟩, ⟨⟨⟨1⟩, 1⟩⟩] true
  obtain ⟨c, ctx', run⟩ := runs.mpr ⟨_, _, _, pointed, by simp [integer], walk⟩
  obtain ⟨source, space, target, pointed', walk', result⟩ := (typed c ctx' run).1
  obtain ⟨rfl, rfl⟩ := pointed.unique pointed'
  obtain rfl := walk.unique walk'
  refine ⟨ctx, mem, constant, integer, ⟨c, ctx', run, result⟩, ?_⟩
  exact (two _ [⟨⟨⟨1⟩, 1⟩⟩] _ [⟨⟨⟨1⟩, 1⟩⟩] true false true integer
    (by simpa using ⟨ir, held⟩)).1.mpr ⟨c, ctx', run⟩

end World
end ModuleIR
