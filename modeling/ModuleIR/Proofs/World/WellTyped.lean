import ModuleIR.Proofs.World.Inherent
import ModuleIR.Proofs.World.Permanence
import ModuleIR.Proofs.World.ValueTypes

set_option autoImplicit false

/-!
# Instructions stay well typed

The verifier looks at no call and at no condition: what it could find was checked when the instruction
was made. Records keep their types through every operation, erasure included, so that calls and
conditional branches stay well typed by the recorded types of their operands. A return is checked only
in a block of a function, and such a return has the function's return type for as long as it is
there.
-/
namespace ModuleIR

namespace Context

/-- The type that is recorded of a value, maybe erased since. -/
def RecordsType (ctx : Context) (v : ValueRef) (t : TypeRef) : Prop :=
  v.ctx = ctx.id ∧ ∃ r, ctx.values[v.index]? = some r ∧ r.type = t

def ArgumentFits (ctx : Context) : Option TypeRef → ValueRef → Prop
  | some param, arg => ctx.RecordsType arg param
  | none, arg => ∃ t, ctx.RecordsType arg t ∧ ctx.FirstClass t

/-- The callee points to a function type that has the result and takes the arguments. -/
structure CallTyped (ctx : Context) (result : TypeRef) (callee : ValueRef)
    (args : List ValueRef) (calleeType signature : TypeRef) (space : AddressSpace)
    (params : List TypeRef) (variadic : Bool) : Prop where
  callee : ctx.RecordsType callee calleeType
  pointer : ctx.shape calleeType = .ok (.pointer signature space)
  signature : ctx.shape signature = .ok (.function result params variadic)
  count : if variadic then params.length ≤ args.length else args.length = params.length
  arguments : ∀ (k : Nat) arg, args[k]? = some arg → ctx.ArgumentFits params[k]? arg

/-- What the verifier leaves to the making of the instruction. -/
def OperationTyped (ctx : Context) (type : TypeRef) : Operation → Prop
  | .call callee args _ => ∃ calleeType signature space params variadic,
    ctx.CallTyped type callee args calleeType signature space params variadic
  | .condBr cond _ _ => ∃ t, ctx.RecordsType cond t ∧ ctx.shape t = .ok (.integer 1)
  | _ => True

def ReturnFits (ctx : Context) (result : TypeRef) : Option ValueRef → Prop
  | some v => ctx.RecordsType v result
  | none => ctx.shape result = .ok .void

/-- An instruction in the function that returns the value, and has its return type. -/
def ReturnsIn (ctx : Context) (i : InstructionRef) (f : FunctionRef)
    (value : Option ValueRef) : Prop :=
  ∃ b br fr result params variadic, ctx.instruction i = .ok ⟨b, .ret value⟩ ∧
    ctx.block b = .ok br ∧ br.parent = some f ∧ ctx.function f = .ok fr ∧
    ctx.signature fr.signature = .ok (result, params, variadic) ∧ ctx.ReturnFits result value

variable {ctx ctx' : Context} {m : ModuleRef}

/-! ### Recorded types last -/

theorem RecordsType.of_valueType {v : ValueRef} {t : TypeRef} (h : ctx.valueType v = .ok t) :
    ctx.RecordsType v t := by
  obtain ⟨r, read, type⟩ := valueType_eq_ok.mp h
  obtain ⟨owner, stored, _⟩ := value_eq_ok.mp read
  exact ⟨owner, r, stored, type⟩

theorem RecordsType.grow (g : ctx.Grows ctx') {v : ValueRef} {t : TypeRef} (h : ctx.RecordsType v t) :
    ctx'.RecordsType v t := by
  obtain ⟨owner, r, stored, rfl⟩ := h
  obtain ⟨r', stored', type, _⟩ := g.values _ _ stored
  exact ⟨owner.trans g.id.symm, r', stored', type⟩

theorem RecordsType.erase (e : ctx.Erases m ctx') {v : ValueRef} {t : TypeRef} (h : ctx.RecordsType v t) :
    ctx'.RecordsType v t := by
  obtain ⟨owner, r, stored, rfl⟩ := h
  by_cases gone : ctx.BelongsTo m ⟨ctx.id, v.index⟩
  · exact ⟨owner.trans e.id.symm, r.tombstone, by rw [e.entombs.values _ gone, stored]; rfl, rfl⟩
  · exact ⟨owner.trans e.id.symm, r, by rw [e.entombs.kept _ gone, stored], rfl⟩

theorem ArgumentFits.grow (g : ctx.Grows ctx') {param : Option TypeRef} {arg : ValueRef}
    (h : ctx.ArgumentFits param arg) : ctx'.ArgumentFits param arg := by
  cases param with
  | some param => exact RecordsType.grow g h
  | none =>
    obtain ⟨t, recorded, first⟩ := h
    exact ⟨t, recorded.grow g, first.grow g⟩

theorem ArgumentFits.erase (e : ctx.Erases m ctx') {param : Option TypeRef} {arg : ValueRef}
    (h : ctx.ArgumentFits param arg) : ctx'.ArgumentFits param arg := by
  cases param with
  | some param => exact RecordsType.erase e h
  | none =>
    obtain ⟨t, recorded, shape, shaped, accepted⟩ := h
    exact ⟨t, recorded.erase e, shape, (e.shape t).trans shaped, accepted⟩

theorem ReturnFits.grow (g : ctx.Grows ctx') {result : TypeRef} {value : Option ValueRef}
    (h : ctx.ReturnFits result value) : ctx'.ReturnFits result value := by
  cases value with
  | some v => exact RecordsType.grow g h
  | none => exact g.shape h

theorem ReturnFits.erase (e : ctx.Erases m ctx') {result : TypeRef} {value : Option ValueRef}
    (h : ctx.ReturnFits result value) : ctx'.ReturnFits result value := by
  cases value with
  | some v => exact RecordsType.erase e h
  | none => exact (e.shape result).trans h

section CallTyped

variable {result calleeType signature : TypeRef} {callee : ValueRef} {args : List ValueRef}
  {space : AddressSpace} {params : List TypeRef} {variadic : Bool}

theorem CallTyped.grow (g : ctx.Grows ctx')
    (h : ctx.CallTyped result callee args calleeType signature space params variadic) :
    ctx'.CallTyped result callee args calleeType signature space params variadic where
  callee := h.callee.grow g
  pointer := g.shape h.pointer
  signature := g.shape h.signature
  count := h.count
  arguments k arg given := (h.arguments k arg given).grow g

theorem CallTyped.erase (e : ctx.Erases m ctx')
    (h : ctx.CallTyped result callee args calleeType signature space params variadic) :
    ctx'.CallTyped result callee args calleeType signature space params variadic where
  callee := h.callee.erase e
  pointer := (e.shape _).trans h.pointer
  signature := (e.shape _).trans h.signature
  count := h.count
  arguments k arg given := (h.arguments k arg given).erase e

end CallTyped

theorem OperationTyped.grow (g : ctx.Grows ctx') {type : TypeRef} {o o' : Operation}
    (bare : o'.bare = o.bare) (h : ctx.OperationTyped type o) : ctx'.OperationTyped type o' := by
  cases o <;> cases o' <;> simp only [Operation.bare, reduceCtorEq] at bare
  case call =>
    obtain ⟨rfl, rfl, _⟩ := Operation.call.inj bare
    obtain ⟨calleeType, signature, space, params, variadic, typed⟩ := h
    exact ⟨calleeType, signature, space, params, variadic, typed.grow g⟩
  case condBr =>
    obtain ⟨rfl, _, _⟩ := Operation.condBr.inj bare
    obtain ⟨t, recorded, shaped⟩ := h
    exact ⟨t, recorded.grow g, g.shape shaped⟩
  all_goals trivial

theorem OperationTyped.erase (e : ctx.Erases m ctx') {type : TypeRef} {o : Operation}
    (h : ctx.OperationTyped type o) : ctx'.OperationTyped type o := by
  cases o with
  | call =>
    obtain ⟨calleeType, signature, space, params, variadic, typed⟩ := h
    exact ⟨calleeType, signature, space, params, variadic, typed.erase e⟩
  | condBr =>
    obtain ⟨t, recorded, shaped⟩ := h
    exact ⟨t, recorded.erase e, (e.shape t).trans shaped⟩
  | ret | br => trivial

/-! ### What the checks establish -/

theorem checkArguments_fit {position : Nat} {params : List TypeRef} {args : List ValueRef} {u : Unit}
    (h : ctx.checkArguments position params args = .ok u) :
    ∀ (k : Nat) arg, args[k]? = some arg → ctx.ArgumentFits params[k]? arg := by
  induction args generalizing position params with
  | nil => simp
  | cons first rest ih =>
    have step {params' : List TypeRef} (front : ctx.ArgumentFits params[0]? first)
        (behind : ∀ k : Nat, params[k + 1]? = params'[k]?)
        (others : ctx.checkArguments (position + 1) params' rest = .ok u) :
        ∀ (k : Nat) arg, (first :: rest)[k]? = some arg → ctx.ArgumentFits params[k]? arg := by
      intro k arg given
      cases k with
      | zero =>
        obtain rfl := Option.some.inj given
        exact front
      | succ k =>
        rw [behind k]
        exact ih others k arg given
    cases params with
    | nil =>
      obtain ⟨ty, typed, h⟩ := Checked.bind_eq_ok.mp h
      obtain ⟨shape, shaped, h⟩ := Checked.bind_eq_ok.mp h
      cases accepted : shape.isFirstClass with
      | false => simp [accepted] at h
      | true =>
        simp only [accepted, Bool.not_true, Bool.false_eq_true, ite_false] at h
        exact step ⟨ty, .of_valueType typed, shape, shaped, accepted⟩ (fun _ => rfl) h
    | cons param params =>
      obtain ⟨ty, typed, others⟩ := Checked.bind_eq_ok.mp h
      split at others
      · simp [Checked.bind_eq_ok] at others
      · rename_i same
        have of : param = ty := Decidable.not_not.mp same
        exact step (of ▸ RecordsType.of_valueType typed) (fun _ => rfl) others

theorem checkCall_typed {callee : ValueRef} {args : List ValueRef} {signature : FunctionTypeRef}
    {result : TypeRef} {params : List TypeRef} {variadic : Bool}
    (h : ctx.checkCall callee args = .ok signature)
    (signed : ctx.signature signature = .ok (result, params, variadic)) :
    ∃ calleeType space,
      ctx.CallTyped result callee args calleeType signature.type space params variadic := by
  obtain ⟨called, result', params', variadic', _, signed', checked, count⟩ := checkCall_parts h
  obtain ⟨rfl, rfl, rfl⟩ : result = result' ∧ params = params' ∧ variadic = variadic' := by
    simpa using Checked.unique signed signed'
  obtain ⟨r, space, _, _, _, read, pointed, _⟩ := calleeSignature?_eq_some.mp called
  exact ⟨r.type, space, .of_valueType (valueType_eq_ok.mpr ⟨r, read, rfl⟩), pointed,
    signature_eq_ok.mp signed, count, checkArguments_fit checked⟩

theorem checkCondition_typed {cond : ValueRef} {u : Unit} (h : ctx.checkCondition cond = .ok u) :
    ∃ t, ctx.RecordsType cond t ∧ ctx.shape t = .ok (.integer 1) := by
  simp only [checkCondition, Checked.bind_eq_ok] at h
  obtain ⟨ty, typed, shape, shaped, h⟩ := h
  split at h
  · simp at h
  · rename_i same
    rw [Decidable.not_not.mp same] at shaped
    exact ⟨ty, .of_valueType typed, shaped⟩

theorem checkReturn_typed {value : Option ValueRef} {b : BlockRef} {br : BlockRecord}
    {f : FunctionRef} {u : Unit} (read : ctx.block b = .ok br) (parent : br.parent = some f)
    (h : ctx.checkReturn value b = .ok u) :
    ∃ fr result params variadic, ctx.function f = .ok fr ∧
      ctx.signature fr.signature = .ok (result, params, variadic) ∧ ctx.ReturnFits result value := by
  simp only [checkReturn, read, Checked.ok_bind, parent, Checked.bind_eq_ok] at h
  obtain ⟨fr, known, ⟨result, params, variadic⟩, signed, h⟩ := h
  refine ⟨fr, result, params, variadic, known, signed, ?_⟩
  cases value with
  | none =>
    obtain ⟨shape, shaped, h⟩ := Checked.bind_eq_ok.mp h
    cases shape with
    | void => exact shaped
    | _ => simp [Shape.isVoid, Checked.bind_eq_ok] at h
  | some v =>
    obtain ⟨actual, typed, h⟩ := Checked.bind_eq_ok.mp h
    split at h
    · simp [Checked.bind_eq_ok] at h
    · rename_i same
      have of : actual = result := Decidable.not_not.mp same
      exact of ▸ RecordsType.of_valueType typed

/-! ### Returns stay where they are -/

/-- The return is there, unless it was erased. -/
def Stands (i : InstructionRef) (f : FunctionRef) (value : Option ValueRef) (ctx : Context) : Prop :=
  ctx.isErased i.value = .ok true ∨ ctx.ReturnsIn i f value

/-- A return that is there stays there, until it is erased. -/
def LeavesReturn (i : InstructionRef) (f : FunctionRef) (value : Option ValueRef)
    (ctx ctx' : Context) : Prop :=
  ctx.Stands i f value → ctx'.Stands i f value

variable {i : InstructionRef} {f : FunctionRef} {value : Option ValueRef}

instance : Std.Refl (LeavesReturn i f value) := ⟨fun _ stands => stands⟩

instance : IsTrans Context (LeavesReturn i f value) :=
  ⟨fun _ _ _ first second stands => second (first stands)⟩

theorem ReturnsIn.grow (g : ctx.Grows ctx') (h : ctx.ReturnsIn i f value) :
    ctx'.ReturnsIn i f value := by
  obtain ⟨b, br, fr, result, params, variadic, made, read, parent, known, signed, fits⟩ := h
  obtain ⟨⟨_, _⟩, made', rfl, bare⟩ := g.instruction made
  obtain rfl := Operation.bare_eq_ret.mp bare
  obtain ⟨br', read', step⟩ := g.block read
  obtain ⟨fr', known', _, signature, _⟩ := g.function known
  exact ⟨_, br', fr', result, params, variadic, made', read', step.parent f parent, known',
    signature_eq_ok.mpr (g.shape (signature ▸ signature_eq_ok.mp signed)), fits.grow g⟩

theorem Grows.leavesReturn (g : ctx.Grows ctx') : LeavesReturn i f value ctx ctx' := by
  rintro (gone | returns)
  · obtain ⟨owner, r, stored, erased⟩ := isErased_iff.mp gone
    obtain ⟨r', stored', _, step⟩ := g.values _ r stored
    exact .inl (isErased_iff.mpr ⟨owner.trans g.id.symm, r', stored', step.erased_iff.mpr erased⟩)
  · exact .inr (returns.grow g)

/-- A return is erased with its block and its function, or none of them is. -/
theorem Erases.leavesReturn (wf : ctx.WellFormed) (e : ctx.Erases m ctx') :
    LeavesReturn i f value ctx ctx' := by
  have erased_of {r : ValueRecord} (owner : i.value.ctx = ctx.id)
      (stored : ctx.values[i.value.index]? = some r)
      (gone : ctx.BelongsTo m ⟨ctx.id, i.value.index⟩) : ctx'.isErased i.value = .ok true :=
    isErased_iff.mpr ⟨owner.trans e.id.symm, r.tombstone,
      by rw [e.entombs.values _ gone, stored]; rfl, rfl⟩
  rintro (gone | ⟨b, br, fr, result, params, variadic, made, read, parent, known, signed, fits⟩)
  · obtain ⟨owner, r, stored, erased⟩ := isErased_iff.mp gone
    by_cases goes : ctx.BelongsTo m ⟨ctx.id, i.value.index⟩
    · exact .inl (erased_of owner stored goes)
    · exact .inl (isErased_iff.mpr
        ⟨owner.trans e.id.symm, r, (e.entombs.kept _ goes).trans stored, erased⟩)
  · obtain ⟨r, held, _⟩ := instruction_eq_ok.mp made
    obtain ⟨owner, stored, _⟩ := value_eq_ok.mp held
    have block := belongsTo_instruction (m := m) wf made
    have home := blockBelongsTo_placed (m := m) read parent known
    by_cases goes : fr.module = m
    · exact .inl (erased_of owner stored (value_self held ▸ block.mpr (home.mpr goes)))
    · have stays : ¬ctx.BlockBelongsTo m b := mt home.mp goes
      exact .inr ⟨b, br, fr, result, params, variadic,
        e.instruction.mpr ⟨made, mt block.mp stays⟩, e.block.mpr ⟨read, stays⟩, parent,
        e.function.mpr ⟨known, goes⟩,
        signature_eq_ok.mpr ((e.shape _).trans (signature_eq_ok.mp signed)), fits.erase e⟩

end Context

open Context

namespace Build

variable {ctx ctx' : Context}

theorem createCall_typed {callee : ValueRef} {args : List ValueRef} {name : String} {b : BlockRef}
    {c : CallRef} (run : (createCall callee args name b ctx).result = .ok (c, ctx')) :
    ctx'.Bears OperationTyped c.value (.call callee args .c) := by
  simp only [createCall, bind_eq_ok, read_eq_ok, pure_eq_ok] at run
  obtain ⟨signature, _, ⟨called, rfl⟩, _, _, ⟨_, rfl⟩, _, _, ⟨_, rfl⟩, ⟨result, params, variadic⟩, _,
    ⟨signed, rfl⟩, i, _, appended, rfl, rfl⟩ := run
  obtain ⟨calleeType, space, typed⟩ := checkCall_typed called signed
  obtain ⟨growth, r, stored, rfl⟩ := append_type appended
  exact ⟨r, stored, calleeType, signature.type, space, params, variadic, typed.grow growth⟩

theorem createCondBranch_typed (wf : ctx.WellFormed) {cond : ValueRef}
    {ifTrue ifFalse b : BlockRef} {c : BranchRef}
    (run : (createCondBranch cond ifTrue ifFalse b ctx).result = .ok (c, ctx')) :
    ctx'.Bears OperationTyped c.value (.condBr cond ifTrue ifFalse) := by
  simp only [createCondBranch, bind_eq_ok, read_eq_ok, pure_eq_ok] at run
  obtain ⟨_, _, ⟨tested, rfl⟩, _, _, ⟨_, rfl⟩, void, mid, typed, i, _, appended, rfl, rfl⟩ := run
  obtain ⟨t, recorded, shaped⟩ := checkCondition_typed tested
  obtain ⟨extends', _⟩ := voidType_spec wf typed
  obtain ⟨growth, r, stored, _⟩ := append_type appended
  have grown := extends'.toGrows.trans growth
  exact ⟨r, stored, t, recorded.grow grown, grown.shape shaped⟩

theorem createReturn_returnsIn (wf : ctx.WellFormed) {value : Option ValueRef} {b : BlockRef}
    {br : BlockRecord} {f : FunctionRef} {c : ReturnRef}
    (admitted : ∀ u ∈ value, ctx.Admits (.value .any u)) (read : ctx.block b = .ok br)
    (parent : br.parent = some f) (run : (createReturn value b ctx).result = .ok (c, ctx')) :
    ctx'.ReturnsIn c.toInstruction f value := by
  obtain ⟨appends, _⟩ := createReturn_spec wf admitted run
  obtain ⟨_, _, checked, _⟩ := bind_eq_ok.mp run
  obtain ⟨checked', rfl⟩ := read_eq_ok.mp checked
  obtain ⟨fr, result, params, variadic, known, signed, fits⟩ :=
    checkReturn_typed read parent checked'
  obtain ⟨⟨_, _⟩, made, rfl, bare⟩ := appends.made
  obtain rfl := Operation.bare_eq_ret.mp bare
  obtain ⟨br', read', step⟩ := appends.block read
  obtain ⟨fr', known', _, signature, _⟩ := appends.function known
  exact ⟨_, br', fr', result, params, variadic, made, read', step.parent f parent, known',
    signature_eq_ok.mpr (appends.shape (signature ▸ signature_eq_ok.mp signed)),
    fits.grow appends.toGrows⟩

end Build

theorem inherent_operationTyped : Inherent OperationTyped where
  grow g := OperationTyped.grow g
  erase e := OperationTyped.erase e
  call _ built := Build.createCall_typed built
  ret wf built := by
    obtain ⟨r, stored, _⟩ := Build.createReturn_type wf built
    exact ⟨r, stored, trivial⟩
  br wf built := by
    obtain ⟨r, stored, _⟩ := Build.createBranch_type wf built
    exact ⟨r, stored, trivial⟩
  condBr wf built := Build.createCondBranch_typed wf built

namespace World

variable {w w' : World} {ctx ctx' : Context} {k : Nat} {i : InstructionRef} {f : FunctionRef}
  {value : Option ValueRef}

theorem leavesReturn_of_steps (reachable : w.Reachable) (steps : Relation.ReflTransGen Step w w')
    (found : w.contexts[k]? = some ctx) :
    ∃ ctx', w'.contexts[k]? = some ctx' ∧ LeavesReturn i f value ctx ctx' := by
  refine (relates_of_steps (fun reachable mem known run => ?_) reachable steps found).2
  have wf := reachable.sound.wellFormed _ mem
  have admitted := reachable.sound.admits_known mem known
  rcases (Request.effect wf admitted run).1.grows_or_erases with grows | ⟨m, rfl, erases⟩
  · exact grows.leavesReturn
  · exact erases.leavesReturn wf

/-- Calls and conditional branches are well typed by the recorded types of their operands, erased or
not, wherever they are; and a return that is made in a block of a function has its return type in
every later world, until it is erased. -/
theorem instructions_well_typed (reachable : w.Reachable) (found : w.contexts[k]? = some ctx) :
    (∀ v r i, ctx.value v = .ok r → r.kind = .instruction i →
      ctx.OperationTyped r.type i.operation) ∧
    ∀ value b br f answers ctx', (∀ h ∈ (Request.createReturn value b).handles, h ∈ w.handles) →
      ctx.block b = .ok br → br.parent = some f →
      ((Request.createReturn value b).run ctx).result = .ok (answers, ctx') →
      ∃ i : ReturnRef, answers = [.value .ret i.value] ∧ ∀ later,
        Relation.ReflTransGen Step
          { contexts := w.contexts.set k ctx', handles := w.handles ++ answers } later →
        ∃ last, later.contexts[k]? = some last ∧
          (last.isErased i.value = .ok true ∨ last.ReturnsIn i.toInstruction f value) := by
  have mem : ctx ∈ w.contexts := List.mem_of_getElem? found
  have sound := reachable.sound
  refine ⟨reachable.eachInstruction inherent_operationTyped ctx mem, ?_⟩
  intro value b br f answers ctx' known read parent run
  obtain ⟨i, built, rfl⟩ := Request.answer_eq_ok run
  have admitted := sound.admits_known mem known
  have returns := Build.createReturn_returnsIn (sound.wellFormed ctx mem)
    (fun u given => admitted _ (List.mem_cons_of_mem _ (List.mem_map_of_mem (by simpa using given))))
    read parent built
  refine ⟨i, rfl, fun later steps => ?_⟩
  have after := reachable.step (.request found known run)
  have found' : (w.contexts.set k ctx')[k]? = some ctx' :=
    List.getElem?_set_self (List.getElem?_eq_some_iff.mp found).1
  obtain ⟨last, found'', leaves⟩ := leavesReturn_of_steps after steps found'
  exact ⟨last, found'', leaves (.inr returns)⟩

/-- A variadic function is called from a detached block and then erased; a block of another function
takes a return. -/
def erasedCallee : World := after [.context, .request 0 (.integerType 32), .upcast (.type .any ⟨⟨1⟩, 0⟩),
  .request 0 (.functionType ⟨⟨1⟩, 0⟩ [⟨⟨1⟩, 0⟩] true), .request 0 (.createModule "n"),
  .request 0 (.createModule "m"),
  .request 0 (.createFunction ⟨⟨⟨1⟩, 1⟩⟩ .external "g" ⟨⟨1⟩, 0⟩),
  .request 0 (.createFunction ⟨⟨⟨1⟩, 1⟩⟩ .external "f" ⟨⟨1⟩, 1⟩),
  .request 0 (.constantSigned ⟨⟨⟨1⟩, 0⟩⟩ 5), .upcast (.value .any ⟨⟨1⟩, 0⟩),
  .upcast (.value .any ⟨⟨1⟩, 4⟩), .request 0 (.createBlock "loose" none none),
  .request 0 (.createCall ⟨⟨1⟩, 0⟩ [⟨⟨1⟩, 4⟩, ⟨⟨1⟩, 4⟩] "c" ⟨⟨1⟩, 0⟩),
  .request 0 (.eraseModule ⟨⟨1⟩, 0⟩), .request 0 (.createBlock "entry" (some ⟨⟨⟨1⟩, 2⟩⟩) none)]

theorem erasedCallee_well_typed : ∃ ctx answers ctx' type, erasedCallee.contexts[0]? = some ctx ∧
    ctx.isErased ⟨⟨1⟩, 0⟩ = .ok true ∧
    ctx.OperationTyped type (.call ⟨⟨1⟩, 0⟩ [⟨⟨1⟩, 4⟩, ⟨⟨1⟩, 4⟩] .c) ∧
    ((Request.createReturn (some ⟨⟨1⟩, 4⟩) ⟨⟨1⟩, 1⟩).run ctx).result = .ok (answers, ctx') ∧
    ∃ i : ReturnRef, answers = [.value .ret i.value] ∧ ∀ later, Relation.ReflTransGen Step
        { contexts := erasedCallee.contexts.set 0 ctx', handles := erasedCallee.handles ++ answers }
        later →
      ∃ last, later.contexts[0]? = some last ∧ (last.isErased i.value = .ok true ∨
        last.ReturnsIn i.toInstruction ⟨⟨⟨1⟩, 2⟩⟩ (some ⟨⟨1⟩, 4⟩)) := by
  have computed : (erasedCallee.contexts[0]?).any (fun ctx : Context =>
      ctx.isErased ⟨⟨1⟩, 0⟩ = .ok true ∧
      (ctx.value ⟨⟨1⟩, 5⟩).map (·.kind) = .ok (.instruction
        ⟨⟨⟨1⟩, 0⟩, .call ⟨⟨1⟩, 0⟩ [⟨⟨1⟩, 4⟩, ⟨⟨1⟩, 4⟩] .c⟩) ∧
      (ctx.block ⟨⟨1⟩, 1⟩).map (·.parent) = .ok (some ⟨⟨⟨1⟩, 2⟩⟩) ∧
      ((Request.createReturn (some ⟨⟨1⟩, 4⟩) ⟨⟨1⟩, 1⟩).run ctx).result.toOption.isSome = true) =
        true := by decide +kernel
  obtain ⟨ctx, found, computed⟩ := (Option.any_eq_true _ _).mp computed
  obtain ⟨gone, called, placed, returned⟩ := of_decide_eq_true computed
  obtain ⟨r, read, kind⟩ := Checked.map_eq_ok.mp called
  obtain ⟨br, block, parent⟩ := Checked.map_eq_ok.mp placed
  obtain ⟨⟨answers, ctx'⟩, ok⟩ := Option.isSome_iff_exists.mp returned
  have run := Checked.toOption_eq_some.mp ok
  have all := instructions_well_typed (reachable_after (by decide +kernel)) found
  have returns := all.2 _ _ br _ answers ctx' (by decide +kernel) block parent run
  exact ⟨ctx, answers, ctx', r.type, found, gone, all.1 _ r _ read kind, run, returns⟩

end World
end ModuleIR
