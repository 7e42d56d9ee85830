import ModuleIR.Proofs.Steps.Tables
import ModuleIR.Proofs.World.Reachable

set_option autoImplicit false

/-!
# Types of operands

Elements of arrays and parameters of functions are of first class, pointers point to what they may, and
whatever an instruction computes with carries a type other than void: callees are pointers, arguments
have the types of parameters or are of first class, conditions are integers. A return is the one
instruction that takes its operand by comparing types, so that void passes where void is to be returned.
-/
namespace ModuleIR

namespace Context

/-- A value, maybe erased since, with a type other than void. -/
def Carries (ctx : Context) (u : ValueRef) : Prop :=
  ∃ r shape, ctx.values[u.index]? = some r ∧ ctx.shape r.type = .ok shape ∧ shape ≠ .void

structure Typed (ctx : Context) : Prop where
  composed : ∀ t shape, ctx.shape t = .ok shape → ctx.Composes shape
  operands : ∀ i r, ctx.instruction i = .ok r → ∀ u ∈ r.operation.operands,
    r.operation = .ret (some u) ∨ ctx.Carries u

variable {ctx ctx' : Context}

theorem typed_new (id : ContextId) : (Context.new id).Typed where
  composed t shape read := by simp [Context.new, shape_eq_ok] at read
  operands i r made := by simp [Context.new, instruction_eq_ok, value_eq_ok] at made

/-! ### What types are made of -/

theorem FirstClass.grow (g : ctx.Grows ctx') {t : TypeRef} (h : ctx.FirstClass t) :
    ctx'.FirstClass t := by
  obtain ⟨shape, read, first⟩ := h
  exact ⟨shape, g.shape read, first⟩

theorem FirstClass.pointee {t : TypeRef} (h : ctx.FirstClass t) : ctx.Pointee t := by
  obtain ⟨shape, read, first⟩ := h
  refine ⟨shape, read, ?_⟩
  cases shape <;> first | rfl | cases first

theorem Composes.mono (shapes : ∀ t s, ctx.shape t = .ok s → ctx'.shape t = .ok s) {shape : Shape}
    (h : ctx.Composes shape) : ctx'.Composes shape := by
  cases shape with
  | void | label | integer => trivial
  | pointer pointee space =>
    obtain ⟨inner, read, accepted⟩ := h
    exact ⟨inner, shapes _ _ read, accepted⟩
  | array element length =>
    obtain ⟨inner, read, accepted⟩ := h
    exact ⟨inner, shapes _ _ read, accepted⟩
  | function result params variadic =>
    intro p mem
    obtain ⟨inner, read, accepted⟩ := h p mem
    exact ⟨inner, shapes _ _ read, accepted⟩

theorem internType_composed {shape : Shape} (composes : ctx.Composes shape)
    (old : ∀ t shape, ctx.shape t = .ok shape → ctx.Composes shape) :
    ∀ t shape', (ctx.internType shape).2.shape t = .ok shape' →
      (ctx.internType shape).2.Composes shape' := by
  unfold internType
  split
  · exact old
  · intro t shape' read
    have growth : ctx.Grows (ctx.addType shape) := addType_grows shape
    rcases shape_addType.mp read with before | ⟨_, rfl⟩
    · exact (old t shape' before).mono fun _ _ => growth.shape
    · exact composes.mono fun _ _ => growth.shape

theorem Interns.composed (h : ctx.Interns ctx') :
    (∀ t shape, ctx.shape t = .ok shape → ctx.Composes shape) →
      ∀ t shape, ctx'.shape t = .ok shape → ctx'.Composes shape := by
  induction h with
  | rest id types =>
    intro old t shape read
    rw [shape_congr id types] at read
    exact (old t shape read).mono fun t _ => (shape_congr id types t).trans
  | type composes => exact internType_composed composes
  | @constant ctx key record =>
    intro old t shape read
    have same (t : TypeRef) : (ctx.internConstant key record).2.shape t = ctx.shape t := by
      unfold internConstant
      split
      · rfl
      · exact shape_congr rfl rfl t
    rw [same] at read
    exact (old t shape read).mono fun t _ => (same t).trans
  | trans _ _ first second => exact fun old => second (first old)

/-! ### Operands -/

theorem Carries.of_value {u : ValueRef} {r : ValueRecord} {shape : Shape}
    (read : ctx.value u = .ok r) (shaped : ctx.shape r.type = .ok shape) (solid : shape ≠ .void) :
    ctx.Carries u :=
  ⟨r, shape, (value_eq_ok.mp read).2.1, shaped, solid⟩

theorem Carries.of_firstClass {u : ValueRef} {r : ValueRecord} (read : ctx.value u = .ok r)
    (first : ctx.FirstClass r.type) : ctx.Carries u := by
  obtain ⟨shape, shaped, accepted⟩ := first
  refine .of_value read shaped ?_
  rintro rfl
  cases accepted

theorem Carries.grow (g : ctx.Grows ctx') {u : ValueRef} (h : ctx.Carries u) : ctx'.Carries u := by
  obtain ⟨r, shape, stored, shaped, solid⟩ := h
  obtain ⟨r', stored', type, _⟩ := g.values _ _ stored
  exact ⟨r', shape, stored', g.shape (type ▸ shaped), solid⟩

theorem Carries.erase {m : ModuleRef} (e : ctx.Erases m ctx') {u : ValueRef} (h : ctx.Carries u) :
    ctx'.Carries u := by
  obtain ⟨r, shape, stored, shaped, solid⟩ := h
  by_cases gone : ctx.BelongsTo m ⟨ctx.id, u.index⟩
  · exact ⟨r.tombstone, shape, by rw [e.entombs.values _ gone, stored]; rfl,
      (e.shape r.type).trans shaped, solid⟩
  · exact ⟨r, shape, by rw [e.entombs.kept _ gone, stored], (e.shape r.type).trans shaped, solid⟩

theorem Carries.shape_ne {u : ValueRef} {r : ValueRecord} (h : ctx.Carries u)
    (read : ctx.value u = .ok r) : ctx.shape r.type ≠ .ok .void := by
  obtain ⟨r', shape, stored, shaped, solid⟩ := h
  obtain rfl : r' = r := Option.some.inj (stored.symm.trans (value_eq_ok.mp read).2.1)
  rw [shaped]
  exact fun void => solid (Except.ok.inj void)

theorem checkArguments_carries {position : Nat} {params : List TypeRef} {args : List ValueRef}
    {u : Unit} (first : ∀ p ∈ params, ctx.FirstClass p)
    (h : ctx.checkArguments position params args = .ok u) : ∀ v ∈ args, ctx.Carries v := by
  induction args generalizing position params with
  | nil => simp
  | cons arg rest ih =>
    rw [List.forall_mem_cons]
    cases params with
    | nil =>
      obtain ⟨ty, typed, h⟩ := Checked.bind_eq_ok.mp h
      obtain ⟨r, read, rfl⟩ := valueType_eq_ok.mp typed
      obtain ⟨shape, shaped, h⟩ := Checked.bind_eq_ok.mp h
      cases accepted : shape.isFirstClass with
      | false => simp [accepted] at h
      | true =>
        simp only [accepted, Bool.not_true, Bool.false_eq_true, ite_false] at h
        exact ⟨.of_firstClass read ⟨shape, shaped, accepted⟩, ih (by simp) h⟩
    | cons param params =>
      rw [List.forall_mem_cons] at first
      obtain ⟨ty, typed, others⟩ := Checked.bind_eq_ok.mp h
      obtain ⟨r, read, rfl⟩ := valueType_eq_ok.mp typed
      split at others
      · simp [Checked.bind_eq_ok] at others
      · rename_i same
        have of : param = r.type := Decidable.not_not.mp same
        exact ⟨.of_firstClass read (of ▸ first.1), ih first.2 others⟩

/-- What is called is a pointer, and what it is called with has types of first class. -/
theorem checkCall_carries (typed : ctx.Typed) {callee : ValueRef} {args : List ValueRef}
    {signature : FunctionTypeRef} (h : ctx.checkCall callee args = .ok signature) :
    ctx.Carries callee ∧ ∀ v ∈ args, ctx.Carries v := by
  obtain ⟨called, _, params, _, _, signed, checked, _⟩ := checkCall_parts h
  obtain ⟨r, _, _, _, _, read, shaped, _⟩ := calleeSignature?_eq_some.mp called
  exact ⟨.of_value read shaped (by simp),
    checkArguments_carries (typed.composed _ _ (signature_eq_ok.mp signed)) checked⟩

theorem checkCondition_carries {cond : ValueRef} {u : Unit} (h : ctx.checkCondition cond = .ok u) :
    ctx.Carries cond := by
  simp only [checkCondition, Checked.bind_eq_ok] at h
  obtain ⟨ty, typed, shape, shaped, h⟩ := h
  obtain ⟨r, read, rfl⟩ := valueType_eq_ok.mp typed
  refine .of_value read shaped ?_
  rintro rfl
  simp at h

end Context

open Context

namespace Request

variable {ctx ctx' : Context}

/-- The operands that a request is made with carry types, but for what is returned. -/
theorem carries (typed : ctx.Typed) {request : Request} {answers : List Handle}
    (run : (request.run ctx).result = .ok (answers, ctx')) :
    match request with
    | createCall callee args _ _ => ∀ u ∈ args ++ [callee], ctx.Carries u
    | createCondBranch cond _ _ _ => ctx.Carries cond
    | _ => True := by
  cases request with
  | createCall callee args name b =>
    obtain ⟨c, built, _⟩ := answer_eq_ok run
    simp only [Build.createCall, Build.bind_eq_ok, Build.read_eq_ok] at built
    obtain ⟨signature, _, ⟨called, _⟩, _⟩ := built
    obtain ⟨callee, args⟩ := checkCall_carries typed called
    exact List.forall_mem_append.mpr ⟨args, List.forall_mem_singleton.mpr callee⟩
  | createCondBranch cond ifTrue ifFalse b =>
    obtain ⟨c, built, _⟩ := answer_eq_ok run
    simp only [Build.createCondBranch, Build.bind_eq_ok, Build.read_eq_ok] at built
    obtain ⟨_, _, ⟨checked, _⟩, _⟩ := built
    exact checkCondition_carries checked
  | _ => trivial

theorem operands_typed (typed : ctx.Typed) {request : Request} {answers : List Handle}
    (effect : request.Effect ctx ctx') (run : (request.run ctx).result = .ok (answers, ctx')) :
    ∀ i r, ctx'.instruction i = .ok r → ∀ u ∈ r.operation.operands,
      r.operation = .ret (some u) ∨ ctx'.Carries u := by
  have kept (grows : ctx.Grows ctx') {i : InstructionRef} {r' : InstructionRecord}
      (made : ctx'.instruction i = .ok r') (old : ∃ r, ctx.instruction i = .ok r) :
      ∀ u ∈ r'.operation.operands, r'.operation = .ret (some u) ∨ ctx'.Carries u := by
    obtain ⟨r, known⟩ := old
    obtain ⟨same, read', _, bare⟩ := grows.instruction known
    obtain rfl := Checked.unique made read'
    intro u mem
    rw [Operation.operands_eq_of_bare bare] at mem
    refine (typed.operands i r known u mem).imp (fun returned => ?_) (·.grow grows)
    rwa [returned, Operation.bare, Operation.bare_eq_ret] at bare
  have appended {b : BlockRef} {operation : Operation} (alive : ctx.AppendsAlive ctx' b operation)
      (new : ∀ u ∈ operation.operands, operation = .ret (some u) ∨ ctx.Carries u) :
      ∀ i r, ctx'.instruction i = .ok r → ∀ u ∈ r.operation.operands,
        r.operation = .ret (some u) ∨ ctx'.Carries u := by
    intro i r' made
    obtain ⟨⟨j, appends⟩, _⟩ := alive
    rcases appends.instructions i r' made with rfl | old
    · obtain ⟨same, read', _, bare⟩ := appends.made
      obtain rfl := Checked.unique made read'
      intro u mem
      rw [Operation.operands_eq_of_bare bare] at mem
      refine (new u mem).imp (fun returned => ?_) (·.grow appends.toGrows)
      rwa [returned, Operation.bare, Operation.bare_eq_ret] at bare
    · exact kept appends.toGrows made old
  have carried := carries typed run
  cases request with
  | eraseModule m =>
    intro i r made u mem
    obtain ⟨old, _⟩ := Context.Erases.instruction effect |>.mp made
    exact (typed.operands i r old u mem).imp_right (·.erase effect)
  | insertBlock b f before =>
    exact fun i r made => kept effect.1.toGrows made (effect.1.instructions i r made)
  | createCall callee args name b => exact appended effect fun u mem => .inr (carried u mem)
  | createReturn value b =>
    refine appended effect fun u mem => .inl ?_
    obtain rfl : value = some u := by simpa [Operation.operands] using mem
    rfl
  | createBranch target b => exact appended effect (by simp [Operation.operands])
  | createCondBranch cond ifTrue ifFalse b =>
    refine appended effect fun u mem => .inr ?_
    obtain rfl := List.mem_singleton.mp mem
    exact carried
  | _ =>
    have extension : ctx.Extends ctx' := effect
    exact fun i r made => kept extension.toGrows made (extension.instructions i r made)

theorem typed (typed : ctx.Typed) {request : Request} {answers : List Handle}
    (effect : request.Effect ctx ctx') (run : (request.run ctx).result = .ok (answers, ctx')) :
    ctx'.Typed where
  operands := operands_typed typed effect run
  composed := by
    by_cases erasure : ∃ m, request = .eraseModule m
    · obtain ⟨m, rfl⟩ := erasure
      intro t shape read
      have erases : ctx.Erases m ctx' := effect
      rw [erases.shape] at read
      exact (typed.composed t shape read).mono fun t _ => (erases.shape t).trans
    · exact (run_interns (fun m same => erasure ⟨m, same⟩) ctx answers ctx' run).composed
        typed.composed

end Request

namespace World

theorem Reachable.typed {w : World} (reachable : w.Reachable) : ∀ ctx ∈ w.contexts, ctx.Typed :=
  reachable.invariant typed_new fun _ _ _ _ wf admitted run typed =>
    Request.typed typed (Request.effect wf admitted run).1 run

end World
end ModuleIR
