import ModuleIR.Proofs.World.Forest
import ModuleIR.Proofs.World.Inherent
import ModuleIR.Proofs.World.Scoping
import ModuleIR.Proofs.World.Typing

set_option autoImplicit false

/-!
# Types of values

Constants and arguments have types of first class. An instruction has the type of its operation: a
call has the result type of the function type that its callee points to, anything else is void.
Pointees, elements and parameters are checked when a type is made from them; the result of a function
type is not, so that a label or a bare function type gets to be the type of a call.
-/
namespace ModuleIR

namespace Context

/-- A value, maybe erased since, that points to a function type with some result. -/
def Gives (ctx : Context) (callee : ValueRef) (result : TypeRef) : Prop :=
  ∃ r signature space params variadic, ctx.values[callee.index]? = some r ∧
    ctx.shape r.type = .ok (.pointer signature space) ∧
    ctx.shape signature = .ok (.function result params variadic)

def HasResult (ctx : Context) (type : TypeRef) : Operation → Prop
  | .call callee _ _ => ctx.Gives callee type
  | _ => ctx.shape type = .ok .void

def AllHaveResults (ctx : Context) : Prop :=
  ∀ v r i, ctx.value v = .ok r → r.kind = .instruction i → ctx.HasResult r.type i.operation

/-- The type of a value is one that a value can have: of first class, or void for an instruction. -/
def Fitting (ctx : Context) (r : ValueRecord) : Prop :=
  ctx.FirstClass r.type ∨ (∃ i, r.kind = .instruction i) ∧ ctx.shape r.type = .ok .void

/-- A call of a function type with a result that no value can have. -/
def CallsUnfit (ctx : Context) (r : ValueRecord) : Prop :=
  ∃ i callee args convention shape, r.kind = .instruction i ∧
    i.operation = .call callee args convention ∧ ctx.Gives callee r.type ∧
    ctx.shape r.type = .ok shape ∧ shape.isFirstClass = false ∧ shape ≠ .void

variable {ctx ctx' : Context}

/-! ### Instructions have the types of their operations -/

theorem Gives.grow (g : ctx.Grows ctx') {callee : ValueRef} {result : TypeRef}
    (h : ctx.Gives callee result) : ctx'.Gives callee result := by
  obtain ⟨r, signature, space, params, variadic, stored, pointed, signed⟩ := h
  obtain ⟨r', stored', type, _⟩ := g.values _ _ stored
  exact ⟨r', signature, space, params, variadic, stored', g.shape (type ▸ pointed), g.shape signed⟩

theorem Gives.erase {m : ModuleRef} (e : ctx.Erases m ctx') {callee : ValueRef} {result : TypeRef}
    (h : ctx.Gives callee result) : ctx'.Gives callee result := by
  obtain ⟨r, signature, space, params, variadic, stored, pointed, signed⟩ := h
  obtain ⟨r', stored', type⟩ : ∃ r', ctx'.values[callee.index]? = some r' ∧ r'.type = r.type := by
    by_cases gone : ctx.BelongsTo m ⟨ctx.id, callee.index⟩
    · exact ⟨r.tombstone, by rw [e.entombs.values _ gone, stored]; rfl, rfl⟩
    · exact ⟨r, by rw [e.entombs.kept _ gone, stored], rfl⟩
  exact ⟨r', signature, space, params, variadic, stored', (e.shape _).trans (type ▸ pointed),
    (e.shape _).trans signed⟩

theorem HasResult.grow (g : ctx.Grows ctx') {type : TypeRef} {o o' : Operation}
    (bare : o'.bare = o.bare) (h : ctx.HasResult type o) : ctx'.HasResult type o' := by
  cases o <;> cases o' <;> simp only [Operation.bare, reduceCtorEq] at bare
  case call =>
    obtain ⟨rfl, rfl, _⟩ := Operation.call.inj bare
    exact Gives.grow g h
  all_goals exact g.shape h

theorem HasResult.erase {m : ModuleRef} (e : ctx.Erases m ctx') {type : TypeRef} {o : Operation}
    (h : ctx.HasResult type o) : ctx'.HasResult type o := by
  cases o with
  | call callee args convention => exact Gives.erase e h
  | ret | br | condBr => exact (e.shape type).trans h

end Context

namespace Build

open Context

variable {ctx mid ctx' : Context}

theorem append_type {b : BlockRef} {type : TypeRef} {operation : Operation} {name : String}
    {i : InstructionRef} (run : (append b type operation name ctx).result = .ok (i, ctx')) :
    ctx.Grows ctx' ∧ ∃ r, ctx'.values[i.value.index]? = some r ∧ r.type = type := by
  have added : (ctx.addInstruction b type operation).Grows ctx' ∧ i = ⟨⟨ctx.id, ctx.values.size⟩⟩ := by
    obtain ⟨_, same, ⟨_, rfl⟩ | ⟨_, named⟩⟩ := append_parts run
    · exact ⟨.refl _, same⟩
    · exact ⟨(setValueName_builds _ name _ () ctx' named).grows, same⟩
  obtain ⟨growth, rfl⟩ := added
  obtain ⟨r, stored, type', _⟩ := growth.values _ _
    ((values_addInstruction ctx.values.size).trans (if_pos rfl))
  exact ⟨(append_builds b type operation name ctx _ ctx' run).grows, r, stored, type'⟩

theorem appendVoid_type (wf : ctx.WellFormed) {b : BlockRef} {void : TypeRef} {operation : Operation}
    {i : InstructionRef} (typed : (voidType ctx).result = .ok (void, mid))
    (run : (append b void operation "" mid).result = .ok (i, ctx')) :
    ∃ r, ctx'.values[i.value.index]? = some r ∧ ctx'.shape r.type = .ok .void := by
  obtain ⟨_, _, shaped⟩ := voidType_spec wf typed
  obtain ⟨growth, r, stored, rfl⟩ := append_type run
  exact ⟨r, stored, growth.shape shaped⟩

theorem createCall_type {callee : ValueRef} {args : List ValueRef} {name : String} {b : BlockRef}
    {c : CallRef} (run : (createCall callee args name b ctx).result = .ok (c, ctx')) :
    ∃ r, ctx'.values[c.value.index]? = some r ∧ ctx'.Gives callee r.type := by
  simp only [createCall, bind_eq_ok, read_eq_ok, pure_eq_ok] at run
  obtain ⟨signature, _, ⟨called, rfl⟩, _, _, ⟨_, rfl⟩, _, _, ⟨_, rfl⟩, ⟨result, params, variadic⟩, _,
    ⟨signed, rfl⟩, i, _, appended, rfl, rfl⟩ := run
  obtain ⟨growth, r, stored, rfl⟩ := append_type appended
  obtain ⟨known, space, _, _, _, read, pointed, _⟩ :=
    calleeSignature?_eq_some.mp (checkCall_parts called).1
  have gives : ctx.Gives callee r.type :=
    ⟨known, _, space, params, variadic, (value_eq_ok.mp read).2.1, pointed, signature_eq_ok.mp signed⟩
  exact ⟨r, stored, gives.grow growth⟩

theorem createReturn_type (wf : ctx.WellFormed) {value : Option ValueRef} {b : BlockRef}
    {c : ReturnRef} (run : (createReturn value b ctx).result = .ok (c, ctx')) :
    ∃ r, ctx'.values[c.value.index]? = some r ∧ ctx'.shape r.type = .ok .void := by
  simp only [createReturn, bind_eq_ok, read_eq_ok] at run
  obtain ⟨_, _, ⟨_, rfl⟩, run⟩ := run
  cases value with
  | none =>
    simp only [bind_eq_ok, pure_eq_ok] at run
    obtain ⟨void, _, typed, i, _, appended, rfl, rfl⟩ := run
    exact appendVoid_type wf typed appended
  | some v =>
    simp only [bind_eq_ok, read_eq_ok, pure_eq_ok] at run
    obtain ⟨_, _, ⟨_, rfl⟩, void, _, typed, i, _, appended, rfl, rfl⟩ := run
    exact appendVoid_type wf typed appended

theorem createBranch_type (wf : ctx.WellFormed) {target b : BlockRef} {c : BranchRef}
    (run : (createBranch target b ctx).result = .ok (c, ctx')) :
    ∃ r, ctx'.values[c.value.index]? = some r ∧ ctx'.shape r.type = .ok .void := by
  simp only [createBranch, bind_eq_ok, pure_eq_ok] at run
  obtain ⟨void, _, typed, i, _, appended, rfl, rfl⟩ := run
  exact appendVoid_type wf typed appended

theorem createCondBranch_type (wf : ctx.WellFormed) {cond : ValueRef} {ifTrue ifFalse b : BlockRef}
    {c : BranchRef} (run : (createCondBranch cond ifTrue ifFalse b ctx).result = .ok (c, ctx')) :
    ∃ r, ctx'.values[c.value.index]? = some r ∧ ctx'.shape r.type = .ok .void := by
  simp only [createCondBranch, bind_eq_ok, read_eq_ok, pure_eq_ok] at run
  obtain ⟨_, _, ⟨_, rfl⟩, _, _, ⟨_, rfl⟩, void, _, typed, i, _, appended, rfl, rfl⟩ := run
  exact appendVoid_type wf typed appended

end Build

open Context

theorem inherent_hasResult : Inherent HasResult where
  grow g := HasResult.grow g
  erase e := HasResult.erase e
  call _ built := Build.createCall_type built
  ret wf built := Build.createReturn_type wf built
  br wf built := Build.createBranch_type wf built
  condBr wf built := Build.createCondBranch_type wf built

/-! ### Everything else is of first class -/

namespace Context

variable {ctx : Context}

/-- A value other than an instruction has a type of first class. -/
theorem firstClass_of_suits (wf : ctx.WellFormed) (typed : ctx.Typed) (made : ctx.AllWellMade)
    {v : ValueRef} {r : ValueRecord} (read : ctx.value v = .ok r)
    (passive : ∀ i, r.kind ≠ .instruction i) : ctx.FirstClass r.type := by
  obtain ⟨suits, _⟩ := made v r read
  cases kind : r.kind with
  | int n =>
    rw [kind] at suits
    exact ⟨_, suits.2, rfl⟩
  | bytes content =>
    rw [kind] at suits
    obtain ⟨_, shaped, _⟩ := suits
    exact ⟨_, shaped, rfl⟩
  | elementPtr e =>
    rw [kind] at suits
    obtain ⟨_, _, _, _, _, _, shaped⟩ := suits
    exact ⟨_, shaped, rfl⟩
  | global g =>
    rw [kind] at suits
    obtain ⟨_, shaped⟩ := suits
    exact ⟨_, shaped, rfl⟩
  | function f =>
    rw [kind] at suits
    exact ⟨_, suits, rfl⟩
  | argument a =>
    obtain ⟨fr, known, mem⟩ := wf.argument_listed (argument_eq_ok.mpr ⟨r, read, kind⟩)
    obtain ⟨fv, held, function⟩ := function_eq_ok.mp known
    obtain ⟨result, params, variadic, signed, _, each⟩ := (made _ fv held).2 fr function
    obtain ⟨position, place⟩ := List.mem_iff_getElem?.mp mem
    obtain ⟨again, read', param, _⟩ := each position _ place
    obtain rfl := Checked.unique read read'
    exact typed.composed _ _ signed _ (List.mem_of_getElem? param)
  | instruction i => exact absurd kind (passive i)
  | erased => exact absurd kind (value_eq_ok.mp read).2.2

/-- A value has a type that values can have unless it calls a function type with another result. -/
theorem not_fitting_iff (wf : ctx.WellFormed) (typed : ctx.Typed) (made : ctx.AllWellMade)
    (results : ctx.AllHaveResults) {v : ValueRef} {r : ValueRecord} (read : ctx.value v = .ok r) :
    ¬ctx.Fitting r ↔ ctx.CallsUnfit r := by
  constructor
  · intro unfit
    obtain ⟨first, void⟩ := not_or.mp unfit
    obtain ⟨i, kind⟩ : ∃ i, r.kind = .instruction i := by
      by_contra passive
      exact first (firstClass_of_suits wf typed made read (not_exists.mp passive))
    have result := results v r i read kind
    obtain ⟨shape, shaped⟩ := (wf.valueSound read).type
    cases operation : i.operation with
    | call callee args convention =>
      rw [operation] at result
      refine ⟨i, callee, args, convention, shape, kind, operation, result, shaped, ?_, ?_⟩
      · exact Bool.eq_false_iff.mpr fun accepted => first ⟨shape, shaped, accepted⟩
      · rintro rfl
        exact void ⟨⟨i, kind⟩, shaped⟩
    | ret | br | condBr =>
      rw [operation] at result
      exact absurd ⟨⟨i, kind⟩, result⟩ void
  · rintro ⟨_, _, _, _, shape, _, _, _, shaped, refused, solid⟩ (⟨shape', shaped', accepted⟩ | ⟨_, void⟩)
    · obtain rfl := Checked.unique shaped shaped'
      rw [refused] at accepted
      cases accepted
    · exact solid (Checked.unique shaped void)

end Context

/-! ### Every type is the type of some call -/

namespace Build

variable {ctx : Context}

theorem functionType_runs {result : TypeRef} (owner : result.ctx = ctx.id) (variadic : Bool) :
    ∃ t ctx', (functionType result [] variadic ctx).result = .ok (t, ctx') := by
  obtain ⟨t, ctx', run⟩ : ∃ t ctx', (internType (.function result [] variadic) ctx).result =
      .ok (t, ctx') := internType_runs (by simpa [Shape.inner] using owner)
  refine ⟨⟨t⟩, ctx', bind_eq_ok.mpr ⟨(), ctx, read_eq_ok.mpr ⟨rfl, rfl⟩, ?_⟩⟩
  exact bind_eq_ok.mpr ⟨t, ctx', run, pure_eq_ok.mpr ⟨rfl, rfl⟩⟩

theorem pointerType_runs {pointee : TypeRef} {shape : Shape} (shaped : ctx.shape pointee = .ok shape)
    (accepted : shape.isPointee = true) (space : AddressSpace) :
    ∃ t ctx', (pointerType pointee space ctx).result = .ok (t, ctx') := by
  obtain ⟨t, ctx', run⟩ : ∃ t ctx', (internType (.pointer pointee space) ctx).result =
      .ok (t, ctx') := internType_runs (by simpa [Shape.inner] using (shape_eq_ok.mp shaped).1)
  refine ⟨⟨t⟩, ctx', bind_eq_ok.mpr ⟨(), ctx, read_eq_ok.mpr ⟨?_, rfl⟩, ?_⟩⟩
  · simp [shaped, accepted]
  · exact bind_eq_ok.mpr ⟨t, ctx', run, pure_eq_ok.mpr ⟨rfl, rfl⟩⟩

theorem rebindInModule_runs {m : ModuleRef} {mr : ModuleRecord} (live : ctx.module m = .ok mr)
    (old : Option String) (name : String) (symbol : Symbol) :
    ∃ bound ctx', (rebindInModule m old name symbol ctx).result = .ok (bound, ctx') ∧
      ∃ mr', ctx'.module m = .ok mr' := by
  have growth : ctx.Grows (ctx.modifyModule m
      ({ · with names := (mr.names.rebind old name symbol).2 })) :=
    modifyModule_grows fun r _ => ⟨rfl, .refl _, List.prefix_rfl⟩
  obtain ⟨mr', live', _⟩ := growth.module live
  refine ⟨(mr.names.rebind old name symbol).1, _,
    bind_eq_ok.mpr ⟨mr, ctx, read_eq_ok.mpr ⟨live, rfl⟩, ?_⟩, mr', live'⟩
  exact bind_eq_ok.mpr ⟨(), _, change_eq_ok.mpr rfl, pure_eq_ok.mpr ⟨rfl, rfl⟩⟩

theorem createFunction_runs (wf : ctx.WellFormed) {signature : FunctionTypeRef} {result : TypeRef}
    {variadic : Bool} (signed : ctx.shape signature.type = .ok (.function result [] variadic))
    {m : ModuleRef} {mr : ModuleRecord} (live : ctx.module m = .ok mr) (linkage : Linkage)
    (name : String) :
    ∃ f ctx' r, (createFunction signature linkage name m ctx).result = .ok (f, ctx') ∧
      ctx'.value f.value = .ok r ∧ ctx'.shape r.type = .ok (.pointer signature.type .generic) := by
  obtain ⟨ty, mid, typed⟩ := pointerType_runs signed rfl .generic
  obtain ⟨extends', wf', shaped, _⟩ := pointerType_spec wf typed
  obtain ⟨mr', live', _⟩ := extends'.module live
  have signed' := extends'.shape signed
  have adds : (mid.allocValue
      { type := ty.type, kind := .function { module := m, signature, linkage } }).2.AddsArguments
        ⟨⟨mid.id, mid.values.size⟩⟩ [] (mid.allocValue
          { type := ty.type, kind := .function { module := m, signature, linkage } }).2 :=
    ⟨rfl, fun _ _ => rfl, fun i r beyond stored =>
      absurd (Array.getElem?_eq_some_iff.mp stored).1 (by omega), by simp⟩
  obtain ⟨bound, last, named, mr'', live''⟩ := rebindInModule_runs
    (module_addFunction adds live') none name (.value ⟨mid.id, mid.values.size⟩)
  have entered := rebindInModule_builds m none name _ _ bound last named
  have renamed : last.Builds (last.setValueName ⟨mid.id, mid.values.size⟩ bound) :=
    .single (.revise (fun _ _ => ⟨rfl, .same _⟩) fun _ _ => rfl)
  have growth := entered.grows.trans renamed.grows
  obtain ⟨r, read, type, _⟩ := growth.value (value_addFunction adds)
  have pointed := growth.shape ((addFunction_grows adds).shape shaped)
  refine ⟨⟨⟨mid.id, mid.values.size⟩⟩, last.setValueName ⟨mid.id, mid.values.size⟩ bound, r, ?_,
    read, type ▸ pointed⟩
  · refine bind_eq_ok.mpr ⟨ty, mid, typed, ?_⟩
    refine bind_eq_ok.mpr ⟨_, _, allocValue_eq_ok.mpr ⟨(shape_eq_ok.mp shaped).1, rfl⟩, ?_⟩
    refine bind_eq_ok.mpr ⟨(result, [], variadic), _, read_eq_ok.mpr
      ⟨signature_eq_ok.mpr ((shape_congr rfl rfl _).trans signed'), rfl⟩, ?_⟩
    refine bind_eq_ok.mpr ⟨[], _, pure_eq_ok.mpr ⟨rfl, rfl⟩, ?_⟩
    refine bind_eq_ok.mpr ⟨(), _, bind_eq_ok.mpr ⟨_, _, read_eq_ok.mpr ⟨function_eq_ok.mpr
      ⟨_, (value_allocValue (by simp)).mpr (.inr ⟨rfl, rfl⟩), rfl⟩, rfl⟩, change_eq_ok.mpr rfl⟩, ?_⟩
    refine bind_eq_ok.mpr ⟨mr', _, read_eq_ok.mpr ⟨(module_congr rfl rfl m).trans live', rfl⟩, ?_⟩
    refine bind_eq_ok.mpr ⟨(), _, change_eq_ok.mpr rfl, ?_⟩
    refine bind_eq_ok.mpr ⟨bound, last, named, ?_⟩
    refine bind_eq_ok.mpr ⟨(), _, change_eq_ok.mpr rfl, ?_⟩
    refine bind_eq_ok.mpr ⟨mr''.name, _, read_eq_ok.mpr
      ⟨moduleName_eq_ok.mpr ⟨mr'', (module_congr rfl rfl m).trans live'', rfl⟩, rfl⟩, ?_⟩
    exact bind_eq_ok.mpr ⟨(), _, emit_eq_ok.mpr rfl, pure_eq_ok.mpr ⟨rfl, rfl⟩⟩

theorem checkCall_nullary {callee : ValueRef} {r : ValueRecord} {signature : FunctionTypeRef}
    {space : AddressSpace} {result : TypeRef} {variadic : Bool} (read : ctx.value callee = .ok r)
    (pointed : ctx.shape r.type = .ok (.pointer signature.type space))
    (signed : ctx.signature signature = .ok (result, [], variadic)) :
    ctx.checkCall callee [] = .ok signature := by
  have called := calleeSignature?_eq_some.mpr ⟨r, space, _, _, _, read, pointed, signed⟩
  simp [checkCall, called, signed, checkArguments]

theorem createBlock_runs (ctx : Context) :
    ∃ b ctx' br, (createBlock "" none none ctx).result = .ok (b, ctx') ∧ ctx'.block b = .ok br ∧
      br.parent = none ∧ ctx'.terminator? b = .ok none ∧ ctx'.values = ctx.values := by
  have held : ({ ctx with blocks := ctx.blocks.push { name := looseName "" } } : Context).block
      ⟨ctx.id, ctx.blocks.size⟩ = .ok { name := looseName "" } :=
    block_eq_ok.mpr ⟨rfl, Array.getElem?_push_size, rfl⟩
  exact ⟨_, _, _, rfl, held, rfl, by simp [terminator?, held], rfl⟩

theorem call_runs (wf : ctx.WellFormed) {t : TypeRef} (typed : ctx.HasType t) :
    ∃ signature c₁ m c₂ f c₃ b c₄ c c₅,
      (functionType t [] false ctx).result = .ok (signature, c₁) ∧
      (createModule "" c₁).result = .ok (m, c₂) ∧
      (createFunction signature .external "" m c₂).result = .ok (f, c₃) ∧
      (createBlock "" none none c₃).result = .ok (b, c₄) ∧
      (createCall f.value [] "" b c₄).result = .ok (c, c₅) ∧
      ∃ r, c₅.value c.value = .ok r ∧ r.type = t := by
  obtain ⟨shape, shaped⟩ := typed
  obtain ⟨signature, c₁, run₁⟩ := functionType_runs (shape_eq_ok.mp shaped).1 false
  obtain ⟨_, wf₁, signed⟩ :=
    functionType_spec wf (fun _ => ⟨shape, (shape_eq_ok.mp shaped).2, rfl⟩) run₁
  obtain ⟨m, c₂, run₂⟩ : ∃ m c₂, (createModule "" c₁).result = .ok (m, c₂) := ⟨_, _, rfl⟩
  obtain ⟨extends₂, wf₂, mr, live⟩ := createModule_spec wf₁ run₂
  have signed₂ := extends₂.shape signed
  obtain ⟨f, c₃, r, run₃, read, pointed⟩ := createFunction_runs wf₂ signed₂ live .external ""
  obtain ⟨extends₃, wf₃, _⟩ := createFunction_spec wf₂ run₃
  have signed₃ := signature_eq_ok.mpr (extends₃.shape signed₂)
  obtain ⟨b, c₄, br, run₄, held, loose, opened, same⟩ := createBlock_runs c₃
  obtain ⟨extends₄, wf₄, _⟩ := createBlock_spec wf₃ run₄
  have read₄ : c₄.value f.value = .ok r := (value_congr extends₄.id same f.value).trans read
  have signed₄ := signature_eq_ok.mpr (extends₄.shape (signature_eq_ok.mp signed₃))
  have made := createCall_unnamed wf₄ opened
    (checkCall_nullary read₄ (extends₄.shape pointed) signed₄) signed₄
    (checkDirectCallee_eq_ok.mpr ⟨r, br, read₄, held, by simp [loose]⟩)
    (checkOperandScope_eq_ok.mpr ⟨br, held, by simp [loose]⟩)
  exact ⟨signature, c₁, m, c₂, f, c₃, b, c₄, _, _, run₁, run₂, run₃, run₄, made, _,
    value_addInstruction, rfl⟩

end Build

theorem Request.answered {α : Type} {ctx ctx' : Context} {step : Build α} {handle : α → Handle}
    {a : α} (run : (step ctx).result = .ok (a, ctx')) :
    ((do return [handle (← step)] : Build (List Handle)) ctx).result = .ok ([handle a], ctx') :=
  Build.bind_eq_ok.mpr ⟨a, ctx', run, Build.pure_eq_ok.mpr ⟨rfl, rfl⟩⟩

namespace World

variable {w : World} {ctx : Context} {k : Nat}

theorem Reachable.allHaveResults (reachable : w.Reachable) :
    ∀ ctx ∈ w.contexts, ctx.AllHaveResults :=
  reachable.eachInstruction inherent_hasResult

theorem Step.ask {ctx' : Context} {answers : List Handle} (request : Request)
    (found : w.contexts[k]? = some ctx) (known : ∀ h ∈ request.handles, h ∈ w.handles)
    (run : (request.run ctx).result = .ok (answers, ctx')) :
    ∃ w', w.Step w' ∧ w'.contexts[k]? = some ctx' ∧ w'.handles = w.handles ++ answers :=
  ⟨_, .request found known run,
    List.getElem?_set_self (List.getElem?_eq_some_iff.mp found).1, rfl⟩

theorem Step.look {h h' : Handle} (found : w.contexts[k]? = some ctx) (known : h ∈ w.handles)
    (yields : ctx.Yields h h') :
    ∃ w', w.Step w' ∧ w'.contexts[k]? = some ctx ∧ w'.handles = w.handles ++ [h'] :=
  ⟨_, .access found known yields, found, rfl⟩

/-- A type that is around is the type of a call after a few further operations. -/
theorem Reachable.call_of_type (reachable : w.Reachable) (found : w.contexts[k]? = some ctx)
    {view : TypeView} {t : TypeRef} (known : .type view t ∈ w.handles) (owner : t.ctx = ctx.id) :
    ∃ later ctx' v r, Relation.ReflTransGen Step w later ∧ later.contexts[k]? = some ctx' ∧
      .value .call v ∈ later.handles ∧ ctx'.value v = .ok r ∧ r.type = t := by
  have mem : ctx ∈ w.contexts := List.mem_of_getElem? found
  obtain ⟨shape, stored, _⟩ := reachable.sound.admits mem (reachable.sound.handles _ known) owner
  obtain ⟨signature, c₁, m, c₂, f, c₃, b, c₄, c, c₅, run₁, run₂, run₃, run₄, run₅, r, read, type⟩ :=
    Build.call_runs (reachable.sound.wellFormed ctx mem) ⟨shape, shape_eq_ok.mpr ⟨owner, stored⟩⟩
  obtain ⟨w₀, step₀, found₀, handles₀⟩ := Step.look found known .typeUpcast
  obtain ⟨w₁, step₁, found₁, handles₁⟩ := Step.ask (.functionType t [] false) found₀
    (by simp [Request.handles, handles₀]) (Request.answered run₁)
  obtain ⟨w₂, step₂, found₂, handles₂⟩ := Step.ask (.createModule "") found₁
    (by simp [Request.handles]) (Request.answered run₂)
  obtain ⟨w₃, step₃, found₃, handles₃⟩ := Step.ask (.createFunction signature .external "" m) found₂
    (by simp [Request.handles, handles₁, handles₂]) (Request.answered run₃)
  obtain ⟨w₄, step₄, found₄, handles₄⟩ := Step.ask (.createBlock "" none none) found₃
    (by simp [Request.handles]) (Request.answered run₄)
  have upcast : c₄.Yields (.value .function f.value) (.value .any f.value) :=
    .valueUpcast (by decide)
  obtain ⟨w₅, step₅, found₅, handles₅⟩ :=
    Step.look found₄ (by simp [handles₃, handles₄]) upcast
  obtain ⟨w₆, step₆, found₆, handles₆⟩ := Step.ask (.createCall f.value [] "" b) found₅
    (by simp [Request.handles, handles₄, handles₅]) (Request.answered run₅)
  refine ⟨w₆, c₅, c.value, r, ?_, found₆, by simp [handles₆], read, type⟩
  exact .tail (.tail (.tail (.tail (.tail (.tail (.single step₀) step₁) step₂) step₃) step₄) step₅)
    step₆

/-- In a reachable world, the types of values are those that values can have, unless a function type
with another result is called; and as nothing is asked of a result, any type that is around can get to
be the type of a call. -/
theorem fitting_unless_unfit_result (reachable : w.Reachable)
    (found : w.contexts[k]? = some ctx) :
    (∀ v r, ctx.value v = .ok r → (¬ctx.Fitting r ↔ ctx.CallsUnfit r)) ∧
    ∀ view t, .type view t ∈ w.handles → t.ctx = ctx.id →
      ∃ later ctx' v r, Relation.ReflTransGen Step w later ∧ later.contexts[k]? = some ctx' ∧
        .value .call v ∈ later.handles ∧ ctx'.value v = .ok r ∧ r.type = t := by
  have mem : ctx ∈ w.contexts := List.mem_of_getElem? found
  have wf := reachable.sound.wellFormed ctx mem
  refine ⟨fun v r read => ?_, fun view t known owner => reachable.call_of_type found known owner⟩
  exact not_fitting_iff wf (reachable.typed ctx mem) (reachable.allWellMade ctx mem)
    (reachable.allHaveResults ctx mem) read

/-- A function that returns a label calls itself. -/
def labelResult : World := after [.context, .request 0 .labelType,
  .request 0 (.functionType ⟨⟨1⟩, 0⟩ [] false), .request 0 (.createModule "m"),
  .request 0 (.createFunction ⟨⟨⟨1⟩, 1⟩⟩ .external "f" ⟨⟨1⟩, 0⟩),
  .request 0 (.createBlock "entry" (some ⟨⟨⟨1⟩, 0⟩⟩) none), .upcast (.value .any ⟨⟨1⟩, 0⟩),
  .request 0 (.createCall ⟨⟨1⟩, 0⟩ [] "c" ⟨⟨1⟩, 0⟩)]

theorem labelResult_unfit : ∃ ctx r, labelResult.contexts[0]? = some ctx ∧
    ctx.value ⟨⟨1⟩, 1⟩ = .ok r ∧ ctx.shape r.type = .ok .label ∧ ctx.CallsUnfit r ∧
    ∃ later ctx' v r', Relation.ReflTransGen Step labelResult later ∧
      later.contexts[0]? = some ctx' ∧ .value .call v ∈ later.handles ∧
      ctx'.value v = .ok r' ∧ r'.type = ⟨⟨1⟩, 1⟩ := by
  have computed : (labelResult.contexts[0]?).any (fun ctx : Context =>
      (ctx.value ⟨⟨1⟩, 1⟩).toOption.any fun r =>
        ctx.id = ⟨1⟩ ∧ ctx.shape r.type = .ok .label) = true := by decide +kernel
  obtain ⟨ctx, found, computed⟩ := (Option.any_eq_true _ _).mp computed
  obtain ⟨r, read, computed⟩ := (Option.any_eq_true _ _).mp computed
  obtain ⟨id, shaped⟩ := of_decide_eq_true computed
  have unfit : ¬ctx.Fitting r := by
    rintro (⟨shape, known, accepted⟩ | ⟨_, void⟩)
    · obtain rfl := Checked.unique shaped known
      cases accepted
    · cases Checked.unique shaped void
  have all := fitting_unless_unfit_result (reachable_after (by decide +kernel)) found
  have signature : .type .function ⟨⟨1⟩, 1⟩ ∈ labelResult.handles := by decide +kernel
  have read' := Checked.toOption_eq_some.mp read
  exact ⟨ctx, r, found, read', shaped, (all.1 _ r read').mp unfit, all.2 _ _ signature id.symm⟩

end World
end ModuleIR
