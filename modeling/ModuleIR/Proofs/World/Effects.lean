import ModuleIR.Proofs.Arena.References
import ModuleIR.Proofs.Steps.Blocks
import ModuleIR.Proofs.Steps.Survivors

set_option autoImplicit false

/-!
# What a request does to its context

Most requests extend the context: no instruction is added, and no block that exists is moved. The
four requests for an instruction append one, the insertion of a block places it, and the erasure of a
module erases it. `Request.effect` says so of every request that succeeds, and that the context stays
well-formed and holds what is answered.
-/
namespace ModuleIR

namespace Context

def AliveIn (ctx : Context) (b : BlockRef) (u : ValueRef) : Prop :=
  ∀ br f, ctx.block b = .ok br → br.parent = some f → ∃ r, ctx.value u = .ok r

theorem UsableIn.aliveIn {ctx : Context} {b : BlockRef} {u : ValueRef} (h : ctx.UsableIn b u) :
    ctx.AliveIn b u := by
  intro br f read parent
  obtain ⟨_, _, _, home, _⟩ := h br f read parent
  exact (anchored_of_anchor home).live

/-- An instruction is appended whose value operands are alive when the block is in a function. -/
def AppendsAlive (ctx ctx' : Context) (b : BlockRef) (operation : Operation) : Prop :=
  (∃ i, ctx.Appends ctx' b operation i) ∧ ∀ u ∈ operation.operands, ctx.AliveIn b u

def PlacesAlive (ctx ctx' : Context) (b : BlockRef) (f : FunctionRef) : Prop :=
  ctx.Places ctx' b f ∧ ∀ i r, ctx.instruction i = .ok r → r.parent = b →
    ∀ u ∈ r.operation.operands, ∃ record, ctx.value u = .ok record

end Context

namespace Request

/-- What a request that succeeds does. -/
def Effect (ctx ctx' : Context) : Request → Prop
  | eraseModule m => ctx.Erases m ctx'
  | insertBlock b f _ => ctx.PlacesAlive ctx' b f
  | createCall callee args _ b => ctx.AppendsAlive ctx' b (.call callee args .c)
  | createReturn value b => ctx.AppendsAlive ctx' b (.ret value)
  | createBranch target b => ctx.AppendsAlive ctx' b (.br target)
  | createCondBranch cond ifTrue ifFalse b => ctx.AppendsAlive ctx' b (.condBr cond ifTrue ifFalse)
  | _ => ctx.Extends ctx'

variable {ctx ctx' : Context}

namespace Effect

variable {request : Request} (h : request.Effect ctx ctx')
include h

theorem grows_or_erases : ctx.Grows ctx' ∨ ∃ m, request = .eraseModule m ∧ ctx.Erases m ctx' := by
  cases request with
  | eraseModule m => exact .inr ⟨m, rfl, h⟩
  | insertBlock b f before => exact .inl h.1.toGrows
  | createCall | createReturn | createBranch | createCondBranch =>
    obtain ⟨⟨_, appends⟩, _⟩ := h
    exact .inl appends.toGrows
  | _ => exact .inl (Context.Extends.toGrows h)

theorem id : ctx'.id = ctx.id := by
  rcases h.grows_or_erases with grows | ⟨m, _, erases⟩
  · exact grows.id
  · exact erases.id

theorem fits {handle : Handle} (fits : ctx.Fits handle) : ctx'.Fits handle := by
  rcases h.grows_or_erases with grows | ⟨m, _, erases⟩
  · exact grows.fits fits
  · exact erases.fits fits

/-- The handles in an instruction were there before, or the request was made with them. -/
theorem references {i : InstructionRef} {r' : InstructionRecord}
    (read : ctx'.instruction i = .ok r') :
    (∃ r, ctx.instruction i = .ok r ∧ r'.operation.handles = r.operation.handles) ∨
      ∀ handle ∈ r'.operation.handles, handle ∈ request.handles := by
  have kept (grows : ctx.Grows ctx') (old : ∃ r, ctx.instruction i = .ok r) :
      ∃ r, ctx.instruction i = .ok r ∧ r'.operation.handles = r.operation.handles := by
    obtain ⟨r, known⟩ := old
    obtain ⟨same, read', _, bare⟩ := grows.instruction known
    obtain rfl := Checked.unique read read'
    exact ⟨r, known, Operation.handles_eq_of_bare bare⟩
  have appended {b : BlockRef} {operation : Operation}
      (alive : ctx.AppendsAlive ctx' b operation)
      (given : ∀ handle ∈ operation.handles, handle ∈ request.handles) :
      (∃ r, ctx.instruction i = .ok r ∧ r'.operation.handles = r.operation.handles) ∨
        ∀ handle ∈ r'.operation.handles, handle ∈ request.handles := by
    obtain ⟨⟨j, appends⟩, _⟩ := alive
    rcases appends.instructions i r' read with rfl | old
    · obtain ⟨made, read', _, bare⟩ := appends.made
      obtain rfl := Checked.unique read read'
      rw [Operation.handles_eq_of_bare bare]
      exact .inr given
    · exact .inl (kept appends.toGrows old)
  cases request with
  | eraseModule m =>
    obtain ⟨old, _⟩ := Context.Erases.instruction h |>.mp read
    exact .inl ⟨r', old, rfl⟩
  | insertBlock b f before => exact .inl (kept h.1.toGrows (h.1.instructions i r' read))
  | createCall callee args name b =>
    refine appended h fun handle mem => ?_
    simp only [Operation.handles, Operation.operands, Operation.successors, handles,
      List.map_append, List.map_cons, List.map_nil, List.append_nil, List.mem_append,
      List.mem_cons, List.not_mem_nil, or_false] at mem ⊢
    exact .inr mem.symm
  | createReturn value b =>
    refine appended h fun handle mem => ?_
    simp only [Operation.handles, Operation.operands, Operation.successors, List.map_nil,
      List.append_nil] at mem
    exact List.mem_cons_of_mem _ mem
  | createBranch target b =>
    refine appended h fun handle mem => ?_
    obtain rfl := List.mem_singleton.mp mem
    exact List.mem_cons_self
  | createCondBranch cond ifTrue ifFalse b =>
    refine appended h fun handle mem => ?_
    exact List.mem_append_left [.block b] mem
  | _ =>
    have extension : ctx.Extends ctx' := h
    exact .inl (kept extension.toGrows (extension.instructions i r' read))

end Effect

theorem answer_eq_ok {α : Type} {step : Build α} {handle : α → Handle} {answers : List Handle}
    (run : ((do return [handle (← step)] : Build (List Handle)) ctx).result = .ok (answers, ctx')) :
    ∃ a, (step ctx).result = .ok (a, ctx') ∧ answers = [handle a] := by
  simp only [Build.bind_eq_ok, Build.pure_eq_ok] at run
  obtain ⟨a, _, success, rfl, rfl⟩ := run
  exact ⟨a, success, rfl⟩

theorem silent_eq_ok {step : Build Unit} {answers : List Handle}
    (run : ((do step; return [] : Build (List Handle)) ctx).result = .ok (answers, ctx')) :
    (step ctx).result = .ok ((), ctx') ∧ answers = [] := by
  simp only [Build.bind_eq_ok, Build.pure_eq_ok] at run
  obtain ⟨a, _, success, rfl, rfl⟩ := run
  exact ⟨success, rfl⟩

theorem reads_appended {view : ValueView} {b : BlockRef} {operation : Operation}
    {i : InstructionRef} (appends : ctx.Appends ctx' b operation i)
    (accepted : ∀ r, r.operation.bare = operation.bare → view.accepts (.instruction r) = true) :
    ctx'.Reads (.value view i.value) := by
  obtain ⟨r, made, _, bare⟩ := appends.made
  obtain ⟨value, read, kind⟩ := Context.instruction_eq_ok.mp made
  exact ⟨value, read, kind ▸ accepted r bare⟩

open Context in
/-- What a request does when it succeeds, whatever handles of other contexts it is made with. What it
answers is alive. -/
theorem effect_reads (wf : ctx.WellFormed) {request : Request} {answers : List Handle}
    (admitted : ∀ h ∈ request.handles, ctx.Admits h)
    (run : (request.run ctx).result = .ok (answers, ctx')) :
    request.Effect ctx ctx' ∧ ctx'.WellFormed ∧ ∀ h ∈ answers, ctx'.Reads h := by
  cases request with
  | voidType =>
    obtain ⟨t, built, rfl⟩ := answer_eq_ok run
    obtain ⟨e, wf', shaped⟩ := Build.voidType_spec wf built
    exact ⟨e, wf', by simpa using ⟨_, shaped, rfl⟩⟩
  | labelType =>
    obtain ⟨t, built, rfl⟩ := answer_eq_ok run
    obtain ⟨e, wf', shaped⟩ := Build.internType_spec wf (by simp [Shape.inner]) built
    exact ⟨e, wf', by simpa using ⟨_, shaped, rfl⟩⟩
  | integerType bits =>
    obtain ⟨t, built, rfl⟩ := answer_eq_ok run
    obtain ⟨e, wf', shaped⟩ := Build.integerType_spec wf built
    exact ⟨e, wf', by simpa using ⟨_, shaped, rfl⟩⟩
  | pointerType pointee space =>
    obtain ⟨t, built, rfl⟩ := answer_eq_ok run
    obtain ⟨e, wf', shaped, _⟩ := Build.pointerType_spec wf built
    exact ⟨e, wf', by simpa using ⟨_, shaped, rfl⟩⟩
  | arrayType element length =>
    obtain ⟨t, built, rfl⟩ := answer_eq_ok run
    obtain ⟨e, wf', shaped⟩ := Build.arrayType_spec wf built
    exact ⟨e, wf', by simpa using ⟨_, shaped, rfl⟩⟩
  | functionType result params variadic =>
    obtain ⟨t, built, rfl⟩ := answer_eq_ok run
    obtain ⟨e, wf', shaped⟩ := Build.functionType_spec wf (admitted _ List.mem_cons_self) built
    exact ⟨e, wf', by simpa using ⟨_, shaped, rfl⟩⟩
  | constantInt value _ =>
    obtain ⟨c, built, rfl⟩ := answer_eq_ok run
    obtain ⟨e, wf', r, read, kind⟩ := Build.constantInt_spec wf built
    exact ⟨e, wf', by simpa using ⟨r, read, kind ▸ rfl⟩⟩
  | constantSigned type value =>
    obtain ⟨c, built, rfl⟩ := answer_eq_ok run
    obtain ⟨e, wf', r, _, _, _, read, kind⟩ := Build.constantSigned_spec wf built
    exact ⟨e, wf', by simpa using ⟨r, read, kind ▸ rfl⟩⟩
  | constantBool value =>
    obtain ⟨c, built, rfl⟩ := answer_eq_ok run
    obtain ⟨e, wf', r, read, kind⟩ := Build.constantBool_spec wf built
    exact ⟨e, wf', by simpa using ⟨r, read, kind ▸ rfl⟩⟩
  | constantString text addNull =>
    obtain ⟨c, built, rfl⟩ := answer_eq_ok run
    obtain ⟨e, wf', r, read, kind⟩ := Build.constantString_spec wf built
    exact ⟨e, wf', by simpa using ⟨r, read, kind ▸ rfl⟩⟩
  | elementPtr base indices inBounds =>
    obtain ⟨c, built, rfl⟩ := answer_eq_ok run
    obtain ⟨e, wf', r, p, read, kind⟩ :=
      Build.elementPtr_spec wf (admitted _ List.mem_cons_self) built
    exact ⟨e, wf', by simpa using ⟨r, read, kind ▸ rfl⟩⟩
  | createModule name =>
    obtain ⟨m, built, rfl⟩ := answer_eq_ok run
    obtain ⟨e, wf', r, read⟩ := Build.createModule_spec wf built
    exact ⟨e, wf', by simpa using ⟨r, read⟩⟩
  | eraseModule m =>
    obtain ⟨built, rfl⟩ := silent_eq_ok run
    obtain ⟨_, e, wf'⟩ := Build.eraseModule_spec wf built
    exact ⟨e, wf', by simp⟩
  | createGlobal m spec =>
    obtain ⟨g, built, rfl⟩ := answer_eq_ok run
    obtain ⟨e, wf', r, known⟩ := Build.createGlobal_spec wf
      (fun init h => admitted _ (by simp [handles, h])) built
    exact ⟨e, wf', by simpa using reads_global known⟩
  | setInitializer g initializer =>
    obtain ⟨built, rfl⟩ := silent_eq_ok run
    obtain ⟨e, wf'⟩ := Build.setInitializer_spec wf
      (fun init h => admitted _ (by simp [handles, h])) built
    exact ⟨e, wf', by simp⟩
  | setGlobalLinkage g linkage =>
    obtain ⟨built, rfl⟩ := silent_eq_ok run
    obtain ⟨e, wf'⟩ := Build.setGlobalLinkage_spec wf built
    exact ⟨e, wf', by simp⟩
  | globalString m text name =>
    obtain ⟨c, built, rfl⟩ := answer_eq_ok run
    obtain ⟨e, wf', r, p, read, kind⟩ := Build.globalString_spec wf built
    exact ⟨e, wf', by simpa using ⟨r, read, kind ▸ rfl⟩⟩
  | createFunction signature linkage name m =>
    obtain ⟨f, built, rfl⟩ := answer_eq_ok run
    obtain ⟨e, wf', r, known⟩ := Build.createFunction_spec wf built
    exact ⟨e, wf', by simpa using reads_function known⟩
  | setFunctionLinkage f linkage =>
    obtain ⟨built, rfl⟩ := silent_eq_ok run
    obtain ⟨e, wf'⟩ := Build.setFunctionLinkage_spec wf built
    exact ⟨e, wf', by simp⟩
  | setFunctionConvention f convention =>
    obtain ⟨built, rfl⟩ := silent_eq_ok run
    obtain ⟨e, wf'⟩ := Build.setFunctionConvention_spec wf built
    exact ⟨e, wf', by simp⟩
  | setValueName v name =>
    obtain ⟨built, rfl⟩ := silent_eq_ok run
    obtain ⟨e, wf'⟩ := Build.setValueName_spec wf built
    exact ⟨e, wf', by simp⟩
  | setBlockName b name =>
    obtain ⟨built, rfl⟩ := silent_eq_ok run
    obtain ⟨e, wf'⟩ := Build.setBlockName_spec wf built
    exact ⟨e, wf', by simp⟩
  | createBlock name parent before =>
    obtain ⟨b, built, rfl⟩ := answer_eq_ok run
    obtain ⟨e, wf', r, read⟩ := Build.createBlock_spec wf built
    exact ⟨e, wf', by simpa using ⟨r, read⟩⟩
  | insertBlock b f before =>
    obtain ⟨built, rfl⟩ := silent_eq_ok run
    obtain ⟨places, wf', br, fr, read, _, usable⟩ := Build.insertBlock_spec wf built
    refine ⟨⟨places, fun i r made parent u mem => ?_⟩, wf', by simp⟩
    obtain ⟨br', read', listed⟩ := wf.instruction_listed made
    rw [parent, read] at read'
    obtain rfl := Except.ok.inj read'
    obtain ⟨r', made', within⟩ := usable i listed
    obtain rfl := Checked.unique made made'
    obtain ⟨_, home, _⟩ := within u mem
    exact (anchored_of_anchor home).live
  | createCall callee args name b =>
    obtain ⟨c, built, rfl⟩ := answer_eq_ok run
    obtain ⟨appends, wf', live, _⟩ := Build.createCall_spec wf
      (fun u mem => admitted _ (List.mem_cons_of_mem _ (List.mem_map_of_mem mem))) built
    refine ⟨⟨⟨_, appends⟩, fun u mem _ _ _ _ => live u ?_⟩, wf', ?_⟩
    · rcases List.mem_append.mp mem with arg | last
      · exact List.mem_cons_of_mem _ arg
      · exact List.mem_singleton.mp last ▸ List.mem_cons_self
    · intro h mem
      obtain rfl := List.mem_singleton.mp mem
      exact reads_appended appends fun r bare => Operation.isCall_eq_of_bare bare
  | createReturn value b =>
    obtain ⟨c, built, rfl⟩ := answer_eq_ok run
    obtain ⟨appends, wf', _, usable⟩ := Build.createReturn_spec wf
      (fun u mem => admitted _ (List.mem_cons_of_mem _ (List.mem_map_of_mem (by simpa using mem))))
      built
    refine ⟨⟨⟨_, appends⟩, fun u mem => (usable u ?_).aliveIn⟩, wf', ?_⟩
    · simpa [Operation.operands] using mem
    · intro h mem
      obtain rfl := List.mem_singleton.mp mem
      exact reads_appended appends fun r bare => Operation.isReturn_eq_of_bare bare
  | createBranch target b =>
    obtain ⟨c, built, rfl⟩ := answer_eq_ok run
    obtain ⟨appends, wf'⟩ := Build.createBranch_spec wf (admitted _ List.mem_cons_self) built
    refine ⟨⟨⟨_, appends⟩, by simp [Operation.operands]⟩, wf', ?_⟩
    intro h mem
    obtain rfl := List.mem_singleton.mp mem
    exact reads_appended appends fun r bare => Operation.isBranch_eq_of_bare bare
  | createCondBranch cond ifTrue ifFalse b =>
    obtain ⟨c, built, rfl⟩ := answer_eq_ok run
    obtain ⟨appends, wf', _, live, _⟩ := Build.createCondBranch_spec wf
      ⟨admitted _ (by simp [handles]), admitted _ (by simp [handles]), admitted _ (by simp [handles])⟩
      built
    refine ⟨⟨⟨_, appends⟩, fun u mem _ _ _ _ => ?_⟩, wf', ?_⟩
    · obtain rfl := List.mem_singleton.mp mem
      exact live
    · intro h mem
      obtain rfl := List.mem_singleton.mp mem
      exact reads_appended appends fun r bare => Operation.isBranch_eq_of_bare bare
  | setCallConvention c convention =>
    obtain ⟨built, rfl⟩ := silent_eq_ok run
    obtain ⟨e, wf'⟩ := Build.setCallConvention_spec wf built
    exact ⟨e, wf', by simp⟩

theorem effect (wf : ctx.WellFormed) {request : Request} {answers : List Handle}
    (admitted : ∀ h ∈ request.handles, ctx.Admits h)
    (run : (request.run ctx).result = .ok (answers, ctx')) :
    request.Effect ctx ctx' ∧ ctx'.WellFormed ∧ ∀ h ∈ answers, ctx'.Holds h := by
  obtain ⟨done, wf', reads⟩ := effect_reads wf admitted run
  exact ⟨done, wf', fun h mem => (reads h mem).holds⟩

end Request
end ModuleIR
