import ModuleIR.Proofs.Names.Renaming
import ModuleIR.Proofs.Steps.Instructions
import ModuleIR.Proofs.Steps.Uniqued

set_option autoImplicit false

/-!
# Building steps keep the tables in step

`Context.Named` says that all tables mirror the names of their scopes and that no name is empty.
Each building step keeps it. Most steps touch no name; those that enter one do so by a renaming.
-/
namespace ModuleIR

namespace Context

/-- Every table mirrors the names of its scope, and no name is empty. -/
structure Named (ctx : Context) : Prop where
  mirrors : ctx.Mirrors fun _ => False
  proper : ctx.Proper

def StaysNamed (ctx ctx' : Context) : Prop := ctx.Named → ctx'.Named

instance : Std.Refl StaysNamed := ⟨fun _ named => named⟩

instance : IsTrans Context StaysNamed := ⟨fun _ _ _ first second named => second (first named)⟩

variable {ctx ctx' : Context} {scope : NameScope} {s : Symbol} {t t' : NameTable}
  {old bound : Option String} {pending : Symbol → Prop}

theorem KeepsNames.stays (keeps : ctx.KeepsNames ctx') : ctx.StaysNamed ctx' :=
  fun named => ⟨named.mirrors.keep keeps, keeps.proper named.proper⟩

theorem Named.rename (named : ctx.Named) (held : ctx.TableOf t scope) (inScope : ctx.Scoped scope s)
    {name : String} (live : ctx.symbolName s = .ok old)
    (rebound : t.rebind old name s = (bound, t')) :
    ((ctx.setTable t' scope).setSymbolName bound s).Named where
  mirrors := by
    have renamed := named.mirrors.rename held inScope live (fun n => and_iff_left not_false) rebound
    exact renamed.congr fun x => by simp
  proper := named.proper.setTable.setSymbolName (NameTable.rebind_ne_empty rebound)

theorem nameScope_eq_ok {v : ValueRef} (h : ctx.nameScope v = .ok scope) :
    ctx.Scoped scope (.value v) ∨ (scope = .detached ∧ ∀ scope', ¬ctx.Scoped scope' (.value v)) := by
  obtain ⟨r, read, h⟩ := Checked.bind_eq_ok.mp h
  cases kind : r.kind with
  | global g =>
    rw [kind] at h
    obtain rfl := Except.ok.inj h
    exact .inl (scoped_value.mpr (.inl ⟨g, global_eq_ok.mpr ⟨r, read, kind⟩, rfl⟩))
  | function f =>
    rw [kind] at h
    obtain rfl := Except.ok.inj h
    exact .inl (scoped_value.mpr (.inr (.inl ⟨f, function_eq_ok.mpr ⟨r, read, kind⟩, rfl⟩)))
  | argument a =>
    rw [kind] at h
    obtain rfl := Except.ok.inj h
    exact .inl (scoped_value.mpr
      (.inr (.inr (.inl ⟨a, argument_eq_ok.mpr ⟨r, read, kind⟩, rfl⟩))))
  | instruction i =>
    have known : ctx.instruction ⟨v⟩ = .ok i := instruction_eq_ok.mpr ⟨r, read, kind⟩
    rw [kind] at h
    obtain ⟨br, held, h⟩ := Checked.bind_eq_ok.mp h
    cases parent : br.parent with
    | some f =>
      rw [parent] at h
      obtain rfl := Except.ok.inj h
      exact .inl (scoped_value.mpr (.inr (.inr (.inr ⟨i, known, br, f, held, parent, rfl⟩))))
    | none =>
      rw [parent] at h
      obtain rfl := Except.ok.inj h
      refine .inr ⟨rfl, ?_⟩
      rintro scope' ⟨r', home, read', content, inside⟩
      obtain rfl := Checked.unique read read'
      rw [kind] at content
      obtain rfl := Option.some.inj content
      obtain ⟨br', f, held', parent', _⟩ := inside
      obtain rfl := Checked.unique held held'
      rw [parent] at parent'
      cases parent'
  | _ =>
    rw [kind] at h
    cases h

theorem blockScope {b : BlockRef} {br : BlockRecord} (read : ctx.block b = .ok br) :
    ctx.Scoped br.nameScope (.block b) ∨
      (br.nameScope = .detached ∧ ∀ scope', ¬ctx.Scoped scope' (.block b)) := by
  unfold BlockRecord.nameScope
  cases parent : br.parent with
  | some f => exact .inl ⟨br, f, read, parent, rfl⟩
  | none =>
    refine .inr ⟨rfl, ?_⟩
    rintro scope' ⟨br', f, read', parent', _⟩
    obtain rfl := Checked.unique read read'
    rw [parent] at parent'
    cases parent'

end Context

namespace Build

open Context

variable {ctx ctx' : Context} {scope : NameScope} {s : Symbol} {old bound : Option String}
  {name : String}

/-- A step that leaves names in order. -/
def StaysNamed {α : Type} (step : Build α) : Prop := Obeys Context.StaysNamed step

/-! ### Steps that touch no name -/

theorem keepsNames_of_key {r : ValueRecord} {key : ConstantKey} (unnamed : r.name = none)
    (content : r.kind.key? = some key) : ctx.KeepsNames (ctx.allocValue r).2 := by
  refine allocValue_keepsNames unnamed ?_ ?_
  · rintro erased
    rw [erased] at content
    cases content
  · intro t table
    obtain ⟨fr, kind, _⟩ := function_of_names? table
    rw [kind] at content
    cases content

theorem internType_keepsNames (shape : Shape) : ctx.KeepsNames (ctx.internType shape).2 := by
  unfold Context.internType
  split
  · exact refl_of _ ctx
  · exact keepsNames_of_arenas rfl rfl rfl rfl

theorem internConstant_keepsNames {key : ConstantKey} {r : ValueRecord} (unnamed : r.name = none)
    (content : r.kind.key? = some key) : ctx.KeepsNames (ctx.internConstant key r).2 := by
  unfold Context.internConstant
  split
  · exact refl_of _ ctx
  · have tabled : (ctx.allocValue r).2.KeepsNames { (ctx.allocValue r).2 with
        constantTable := ctx.constantTable.insert key (ctx.allocValue r).1 } :=
      keepsNames_of_arenas rfl rfl rfl rfl
    exact trans_of _ (keepsNames_of_key unnamed content) tabled

theorem interning_named : Interning Context.StaysNamed where
  types _ shape _ := (internType_keepsNames shape).stays
  constants _ _ _ unnamed content := (internConstant_keepsNames unnamed content).stays

theorem modifyGlobal_named {g : GlobalRef} {f : GlobalRecord → GlobalRecord}
    (home : ∀ r, (f r).module = r.module) : (modifyGlobal g f).StaysNamed := by
  intro ctx _ ctx' run
  simp only [modifyGlobal, bind_eq_ok, read_eq_ok, change_eq_ok] at run
  obtain ⟨r, _, ⟨read, rfl⟩, rfl⟩ := run
  obtain ⟨value, held, kind⟩ := global_eq_ok.mp read
  refine (modifyValue_keepsNames held (by simp) rfl ?_ ?_).stays
  · simp [kind, ValueKind.home, home]
  · simp [kind, ValueKind.names?]

theorem setGlobalLinkage_named (g : GlobalRef) (linkage : Linkage) :
    (setGlobalLinkage g linkage).StaysNamed := modifyGlobal_named fun _ => rfl

theorem setInitializer_named (g : GlobalRef) (initializer : Option ConstantRef) :
    (setInitializer g initializer).StaysNamed := by
  have replaced : (modifyGlobal g ({ · with initializer })).StaysNamed := modifyGlobal_named fun _ => rfl
  cases initializer with
  | none => exact replaced
  | some init => exact .bind (.read _) fun _ => replaced

theorem modifyFunction_keepsNames {f : FunctionRef} {fr : FunctionRecord}
    {g : FunctionRecord → FunctionRecord} (read : ctx.function f = .ok fr)
    (home : (g fr).module = fr.module) (names : (g fr).names = fr.names) :
    ctx.KeepsNames (ctx.modifyFunction f g) := by
  obtain ⟨value, held, kind⟩ := function_eq_ok.mp read
  refine modifyValue_keepsNames held ?_ ?_ ?_ ?_
  · simp [kind]
  · simp [kind]
  · simp [kind, ValueKind.home, home]
  · simp [kind, ValueKind.names?, names]

theorem modifyFunction_named {f : FunctionRef} {g : FunctionRecord → FunctionRecord}
    (home : ∀ r, (g r).module = r.module) (names : ∀ r, (g r).names = r.names) :
    (modifyFunction f g).StaysNamed := by
  intro ctx _ ctx' run
  simp only [modifyFunction, bind_eq_ok, read_eq_ok, change_eq_ok] at run
  obtain ⟨fr, _, ⟨read, rfl⟩, rfl⟩ := run
  exact (modifyFunction_keepsNames read (home fr) (names fr)).stays

theorem setFunctionLinkage_named (f : FunctionRef) (linkage : Linkage) :
    (setFunctionLinkage f linkage).StaysNamed :=
  modifyFunction_named (fun _ => rfl) fun _ => rfl

theorem setFunctionConvention_named (f : FunctionRef) (convention : CallingConv) :
    (setFunctionConvention f convention).StaysNamed :=
  modifyFunction_named (fun _ => rfl) fun _ => rfl

theorem setCallConvention_named (c : CallRef) (convention : CallingConv) :
    (setCallConvention c convention).StaysNamed := by
  intro ctx _ ctx' run
  simp only [setCallConvention, bind_eq_ok, read_eq_ok] at run
  obtain ⟨⟨parent, operation⟩, _, ⟨read, rfl⟩, run⟩ := run
  obtain ⟨value, held, kind⟩ := instruction_eq_ok.mp read
  cases operation with
  | call callee args former =>
    simp only [change_eq_ok] at run
    obtain rfl := run
    refine (modifyValue_keepsNames held (by simp) rfl ?_ ?_).stays
    · simp [kind, ValueKind.home]
    · simp [kind, ValueKind.names?]
  | _ =>
    obtain ⟨_, rfl⟩ := pure_eq_ok.mp run
    exact refl_of _ ctx

theorem createModule_named (wf : ctx.WellFormed) {m : ModuleRef}
    (run : (createModule name ctx).result = .ok (m, ctx')) : ctx.StaysNamed ctx' := by
  obtain ⟨_, _, emitted, made⟩ := bind_eq_ok.mp run
  obtain rfl := emit_eq_ok.mp emitted
  obtain ⟨rfl, rfl⟩ := Prod.mk.inj (Except.ok.inj made)
  exact (pushModule_keepsNames wf fun _ => rfl).stays

/-! ### Steps that enter one name -/

theorem bindIn_eq_ok {mid : Context}
    (run : (bindIn scope old name s ctx).result = .ok (bound, mid)) :
    (scope = .detached ∧ bound = looseName name ∧ mid = ctx) ∨
      ∃ t t', ctx.TableOf t scope ∧ t.rebind old name s = (bound, t') ∧ mid = ctx.setTable t' scope := by
  cases scope with
  | detached =>
    obtain ⟨rfl, rfl⟩ := pure_eq_ok.mp run
    exact .inl ⟨rfl, rfl, rfl⟩
  | module m =>
    simp only [bindIn, rebindInModule, bind_eq_ok, read_eq_ok, change_eq_ok, pure_eq_ok] at run
    obtain ⟨r, _, ⟨read, rfl⟩, _, _, rfl, rfl, rfl⟩ := run
    exact .inr ⟨r.names, _, ⟨r, read, rfl⟩, rfl, rfl⟩
  | function f =>
    simp only [bindIn, rebindInFunction, bind_eq_ok, read_eq_ok, change_eq_ok, pure_eq_ok] at run
    obtain ⟨r, _, ⟨read, rfl⟩, _, _, rfl, rfl, rfl⟩ := run
    obtain ⟨value, held, kind⟩ := function_eq_ok.mp read
    exact .inr ⟨r.names, _, ⟨value, held, by rw [kind]; rfl⟩, rfl, rfl⟩

theorem looseName_ne_empty : looseName name ≠ some "" := by
  unfold looseName
  split
  · simp
  · rename_i filled
    simpa using filled

/-- A symbol that was entered under its name, or is in no scope, is renamed. -/
theorem rename_named {mid : Context} (live : ctx.symbolName s = .ok old)
    (home : ctx.Scoped scope s ∨ (scope = .detached ∧ ∀ scope', ¬ctx.Scoped scope' s))
    (run : (bindIn scope old name s ctx).result = .ok (bound, mid)) :
    ctx.StaysNamed (mid.setSymbolName bound s) := by
  rcases bindIn_eq_ok run with ⟨rfl, rfl, rfl⟩ | ⟨t, t', held, rebound, rfl⟩
  · have loose : ∀ scope', ¬mid.Scoped scope' s := by
      rcases home with inScope | ⟨_, loose⟩
      · exact absurd rfl inScope.attached
      · exact loose
    exact (setSymbolName_keepsNames live loose looseName_ne_empty).stays
  · rcases home with inScope | ⟨rfl, _⟩
    · exact fun named => named.rename held inScope live rebound
    · exact held.elim

theorem setValueName_named (v : ValueRef) (name : String) : (setValueName v name).StaysNamed := by
  intro ctx _ ctx' run
  obtain ⟨scope, record, bound, mid, home, read, entered, rfl⟩ := setValueName_parts run
  have live : ctx.symbolName (.value v) = .ok record.name := valueName_eq_ok.mpr ⟨record, read, rfl⟩
  exact rename_named live (nameScope_eq_ok home) entered

theorem setBlockName_named (b : BlockRef) (name : String) : (setBlockName b name).StaysNamed := by
  intro ctx _ ctx' run
  obtain ⟨record, bound, mid, read, entered, rfl⟩ := setBlockName_parts run
  have live : ctx.symbolName (.block b) = .ok record.name := symbolName_block.mpr ⟨record, read, rfl⟩
  exact rename_named live (blockScope read) entered

theorem enter_named {r : ValueRecord} {v : ValueRef} {m : ModuleRef} {mid : Context}
    (read : ctx.value v = .ok r) (unnamed : r.name = none)
    (home : r.kind.home = some (.table (.module m)))
    (run : (rebindInModule m none name (.value v) ctx).result = .ok (bound, mid)) :
    ctx.StaysNamed (mid.setValueName v bound) := by
  have live : ctx.symbolName (.value v) = .ok none := valueName_eq_ok.mpr ⟨r, read, unnamed⟩
  have inScope : ctx.Scoped (.module m) (.value v) := ⟨r, _, read, home, rfl⟩
  have entered : (bindIn (.module m) none name (.value v) ctx).result = .ok (bound, mid) := run
  exact rename_named live (.inl inScope) entered

theorem createGlobal_named (m : ModuleRef) (spec : GlobalSpec) :
    (createGlobal m spec).StaysNamed := by
  intro ctx g ctx' run
  obtain ⟨position, ty, mid, bound, last, _, _, typed, rfl, table, rfl⟩ := createGlobal_parts run
  have pointed : ctx.StaysNamed mid := interning_named.pointerType _ _ ctx ty mid typed
  have allocated : mid.KeepsNames
      (mid.allocValue { type := ty.type, kind := .global (spec.record m) }).2 :=
    allocValue_keepsNames rfl (by simp) (by simp [ValueKind.names?])
  have added : mid.KeepsNames (mid.addGlobal ty.type (spec.record m) position) := by
    apply trans_of _ allocated
    exact modifyModule_keepsNames fun _ => rfl
  have named := enter_named value_addGlobal rfl rfl table
  exact trans_of _ pointed (trans_of _ added.stays named)

theorem globalString_named (m : ModuleRef) (text name : String) :
    (globalString m text name).StaysNamed :=
  .bind (interning_named.constantString _ _) fun _ => .bind (.read _) fun _ =>
    .bind (createGlobal_named _ _) fun _ => .bind (interning_named.integerType _) fun _ =>
      .bind (interning_named.constantSigned _ _) fun _ => interning_named.elementPtr _ _ _

theorem allocArguments_named (f : FunctionRef) (position : Nat) (types : List TypeRef) :
    (allocArguments f position types).StaysNamed := by
  induction types generalizing position with
  | nil => exact .pure _
  | cons type rest ih =>
    refine .bind (.bind (.read _) fun _ => .update fun _ => ?_) fun _ =>
      .bind (ih (position + 1)) fun _ => .pure _
    exact (allocValue_keepsNames rfl (by simp) (by simp [ValueKind.names?])).stays

theorem createFunction_named (wf : ctx.WellFormed) {signature : FunctionTypeRef} {linkage : Linkage}
    {m : ModuleRef} {f : FunctionRef}
    (run : (createFunction signature linkage name m ctx).result = .ok (f, ctx')) :
    ctx.StaysNamed ctx' := by
  obtain ⟨ty, mid, result, params, variadic, args, filled, mr, bound, last, typed, rfl, signed, argued,
    read, table, rfl⟩ := createFunction_parts run
  obtain ⟨_, wf₁, _, _⟩ := pointerType_spec wf typed
  have pointed : ctx.StaysNamed mid := interning_named.pointerType _ _ ctx ty mid typed
  have allocated : mid.KeepsNames (mid.allocValue
      { type := ty.type, kind := .function { module := m, signature, linkage } }).2 :=
    allocFunction_keepsNames wf₁ fun _ => rfl
  have extended := allocArguments_named _ _ _ _ args filled argued
  have adds := allocArguments_spec (fun t mem => (allocValue_grows _).hasType
    (wf₁.hasType_inner signed (List.mem_cons_of_mem _ mem))) argued
  have made : filled.value ⟨mid.id, mid.values.size⟩ = .ok
      { type := ty.type, kind := .function { module := m, signature, linkage } } :=
    adds.value ((value_allocValue (by simp)).mpr (.inr ⟨rfl, rfl⟩))
  have listed : filled.KeepsNames (mid.addFunction filled m args) := by
    have known := function_eq_ok.mpr ⟨_, made, rfl⟩
    have filledIn : filled.KeepsNames
        (filled.modifyFunction ⟨⟨mid.id, mid.values.size⟩⟩ ({ · with args })) :=
      modifyFunction_keepsNames known rfl rfl
    apply trans_of _ filledIn
    exact modifyModule_keepsNames fun _ => rfl
  have named := enter_named (value_addFunction adds) rfl rfl table
  have filling : mid.StaysNamed filled := trans_of _ allocated.stays extended
  exact trans_of _ pointed (trans_of _ filling (trans_of _ listed.stays named))

/-! ### Instructions -/

theorem append_named (b : BlockRef) (type : TypeRef) (operation : Operation) (name : String) :
    (append b type operation name).StaysNamed := by
  intro ctx i ctx' run
  obtain ⟨⟨br, read⟩, rfl, last⟩ := append_parts run
  have allocated : ctx.KeepsNames
      (ctx.allocValue { type, kind := .instruction ⟨b, operation⟩ }).2 :=
    allocValue_keepsNames rfl (by simp) (by simp [ValueKind.names?])
  have read' : (ctx.allocValue { type, kind := .instruction ⟨b, operation⟩ }).2.block b = .ok br :=
    (block_congr rfl rfl b).trans read
  have added : ctx.KeepsNames (ctx.addInstruction b type operation) :=
    trans_of _ allocated (modifyBlock_keepsNames read' (block_eq_ok.mp read).2.2 rfl rfl)
  rcases last with ⟨_, rfl⟩ | ⟨_, named⟩
  · exact added.stays
  · exact trans_of _ added.stays (setValueName_named _ _ _ _ _ named)

theorem createCall_named (callee : ValueRef) (args : List ValueRef) (name : String) (b : BlockRef) :
    (createCall callee args name b).StaysNamed :=
  .bind (.read _) fun _ => .bind (.read _) fun _ => .bind (.read _) fun _ => .bind (.read _) fun _ =>
    .bind (append_named _ _ _ _) fun _ => .pure _

theorem createReturn_named (value : Option ValueRef) (b : BlockRef) :
    (createReturn value b).StaysNamed := by
  have made : (do
      let void ← voidType
      return (⟨(← append b void (.ret value) "").value⟩ : ReturnRef) : Build ReturnRef).StaysNamed :=
    .bind (interning_named.internType rfl) fun _ => .bind (append_named _ _ _ _) fun _ => .pure _
  refine .bind (.read _) fun _ => ?_
  cases value with
  | none => exact made
  | some v => exact .bind (.read _) fun _ => made

theorem createBranch_named (target b : BlockRef) : (createBranch target b).StaysNamed :=
  .bind (interning_named.internType rfl) fun _ => .bind (append_named _ _ _ _) fun _ => .pure _

theorem createCondBranch_named (cond : ValueRef) (ifTrue ifFalse b : BlockRef) :
    (createCondBranch cond ifTrue ifFalse b).StaysNamed :=
  .bind (.read _) fun _ => .bind (.read _) fun _ => .bind (interning_named.internType rfl) fun _ =>
    .bind (append_named _ _ _ _) fun _ => .pure _

end Build
end ModuleIR
