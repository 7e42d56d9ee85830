import ModuleIR.Proofs.Steps.Elementary
import ModuleIR.Proofs.World.Reachable

set_option autoImplicit false

/-!
# Building steps as elementary changes

Every request but the erasure of a module is a number of elementary changes. So a property that new
contexts have, and that elementary changes and erasures keep, holds of every context of a reachable
world.
-/
namespace ModuleIR

namespace Build

open Context

variable {ctx ctx' : Context} {α : Type}

/-- A step that does elementary changes in every context. -/
def Builds (step : Build α) : Prop := Obeys Context.Builds step

theorem change_builds {f : Context → Context} (one : ∀ ctx : Context, ctx.Elementary (f ctx)) :
    (change f).Builds :=
  .change fun ctx => .single (one ctx)

/-! ### Types and constants -/

theorem internType_builds (shape : Shape) : (internType shape).Builds := by
  refine .bind (.read _) fun _ => .update fun ctx => ?_
  unfold Context.internType
  cases found : ctx.typeTable.find? shape with
  | some known => exact .refl
  | none => exact .single (.type found)

theorem integerType_builds (bits : Nat) : (integerType bits).Builds :=
  .bind (.require _ _) fun _ => .bind (internType_builds _) fun _ => .pure _

theorem pointerType_builds (pointee : TypeRef) (space : AddressSpace) :
    (pointerType pointee space).Builds :=
  .bind (.read _) fun _ => .bind (internType_builds _) fun _ => .pure _

theorem arrayType_builds (element : TypeRef) (length : Nat) : (arrayType element length).Builds :=
  .bind (.read _) fun _ => .bind (internType_builds _) fun _ => .pure _

theorem functionType_builds (result : TypeRef) (params : List TypeRef) (variadic : Bool) :
    (functionType result params variadic).Builds :=
  .bind (.read _) fun _ => .bind (internType_builds _) fun _ => .pure _

theorem internConstant_builds {key : ConstantKey} {record : ValueRecord} {v : ValueRef}
    (content : record.kind.key? = some key) (suits : ctx.Suits record.type record.kind)
    (run : ctx.internConstant key record = (v, ctx')) : ctx.Builds ctx' := by
  unfold Context.internConstant at run
  cases found : ctx.constantTable.find? key with
  | some known =>
    rw [found] at run
    obtain ⟨_, rfl⟩ := Prod.mk.inj run
    exact .refl
  | none =>
    rw [found] at run
    obtain ⟨_, rfl⟩ := Prod.mk.inj run
    exact .single (.constant found content suits)

theorem constantInt_builds (wf : ctx.WellFormed) {n : WideInt} (built : n.Built)
    {c : ConstantIntRef} (run : (constantInt n ctx).result = .ok (c, ctx')) : ctx.Builds ctx' := by
  simp only [constantInt, bind_eq_ok, update_eq_ok, pure_eq_ok] at run
  obtain ⟨type, mid, typed, v, _, interned, rfl, rfl⟩ := run
  obtain ⟨_, _, shaped⟩ := integerType_spec wf typed
  have suits : mid.Suits type.type (.int n) := ⟨built, shaped⟩
  exact (integerType_builds _ ctx type mid typed).trans (internConstant_builds rfl suits interned)

theorem constantSigned_builds (wf : ctx.WellFormed) {type : IntegerTypeRef} {value : Int64}
    {c : ConstantIntRef} (run : (constantSigned type value ctx).result = .ok (c, ctx')) :
    ctx.Builds ctx' := by
  simp only [constantSigned, bind_eq_ok, read_eq_ok] at run
  obtain ⟨bits, _, ⟨_, rfl⟩, n, _, ⟨read, rfl⟩, made⟩ := run
  obtain ⟨_, valid, made'⟩ := Checked.bind_eq_ok.mp read
  obtain rfl := Except.ok.inj made'
  exact constantInt_builds wf (.signed (checkWidth_eq_ok.mp valid) value) made

theorem constantBool_builds (wf : ctx.WellFormed) {value : Bool} {c : ConstantIntRef}
    (run : (constantBool value ctx).result = .ok (c, ctx')) : ctx.Builds ctx' := by
  simp only [constantBool, bind_eq_ok, read_eq_ok] at run
  obtain ⟨n, _, ⟨read, rfl⟩, made⟩ := run
  obtain ⟨_, valid, made'⟩ := Checked.bind_eq_ok.mp read
  obtain rfl := Except.ok.inj made'
  exact constantInt_builds wf (.unsigned (checkWidth_eq_ok.mp valid) _) made

theorem constantString_builds (wf : ctx.WellFormed) {text : String} {addNull : Bool}
    {c : ConstantRef} (run : (constantString text addNull ctx).result = .ok (c, ctx')) :
    ctx.Builds ctx' := by
  simp only [constantString, bind_eq_ok, update_eq_ok, pure_eq_ok] at run
  obtain ⟨byte, mid, typed, array, mid', arrayed, v, _, interned, rfl, rfl⟩ := run
  obtain ⟨_, wf₁, byteShape⟩ := integerType_spec wf typed
  obtain ⟨extends₂, _, shaped⟩ := arrayType_spec wf₁ arrayed
  have suits : mid'.Suits array.type (.bytes (stringBytes text addNull)) :=
    ⟨byte.type, shaped, extends₂.shape byteShape⟩
  exact ((integerType_builds _ ctx byte mid typed).trans
    (arrayType_builds _ _ mid array mid' arrayed)).trans (internConstant_builds rfl suits interned)

theorem elementPtr_builds (wf : ctx.WellFormed) {base : ConstantRef} {indices : List ConstantRef}
    {inBounds : Bool} {c : ConstantRef}
    (run : (elementPtr base indices inBounds ctx).result = .ok (c, ctx')) : ctx.Builds ctx' := by
  simp only [elementPtr, bind_eq_ok, read_eq_ok, update_eq_ok, pure_eq_ok] at run
  obtain ⟨⟨source, space⟩, _, ⟨parts, rfl⟩, target, _, ⟨walk, rfl⟩, ty, mid, typed, v, _, interned,
    rfl, rfl⟩ := run
  obtain ⟨extends', _, shaped, _⟩ := pointerType_spec wf typed
  obtain ⟨r, read, pointed⟩ := pointerParts_eq_ok.mp parts
  obtain ⟨r', read', type', _⟩ := extends'.toGrows.value read
  have suits : mid.Suits ty.type
      (.elementPtr ⟨source, base.value, indices.map (·.value), inBounds⟩) := by
    refine ⟨r', target, space, read', type' ▸ extends'.shape pointed, ?_, shaped⟩
    rw [List.length_map]
    exact (reaches_of_elementType walk).mono fun _ _ => extends'.shape
  exact (pointerType_builds _ _ ctx ty mid typed).trans (internConstant_builds rfl suits interned)

/-! ### Names -/

theorem setValueName_changes (v : ValueRef) (name : Option String) :
    (change (·.setValueName v name)).Builds :=
  change_builds fun _ => .revise (fun _ _ => ⟨rfl, .same _⟩) fun _ _ => rfl

theorem changeFunction_builds (f : FunctionRef) {g : FunctionRecord → FunctionRecord}
    (body : ∀ fr, (g fr).module = fr.module ∧ (g fr).signature = fr.signature ∧
      (g fr).args = fr.args ∧ fr.blocks.Sublist (g fr).blocks) :
    (change (·.modifyFunction f g)).Builds :=
  change_builds fun _ => .revise (fun r _ => kept_of_function body r) fun r _ =>
    initializer?_of_function r

theorem modifyFunction_builds (f : FunctionRef) {g : FunctionRecord → FunctionRecord}
    (body : ∀ fr, (g fr).module = fr.module ∧ (g fr).signature = fr.signature ∧
      (g fr).args = fr.args ∧ fr.blocks.Sublist (g fr).blocks) : (modifyFunction f g).Builds :=
  .bind (.read _) fun _ => changeFunction_builds f body

theorem rebindInModule_builds (m : ModuleRef) (old : Option String) (name : String)
    (symbol : Symbol) : (rebindInModule m old name symbol).Builds :=
  .bind (.read _) fun _ => .bind (change_builds fun _ => .moduleNames m _) fun _ => .pure _

theorem rebindInFunction_builds (f : FunctionRef) (old : Option String) (name : String)
    (symbol : Symbol) : (rebindInFunction f old name symbol).Builds :=
  .bind (.read _) fun _ =>
    .bind (changeFunction_builds f fun _ => ⟨rfl, rfl, rfl, .refl _⟩) fun _ => .pure _

theorem bindIn_builds (scope : NameScope) (old : Option String) (name : String) (symbol : Symbol) :
    (bindIn scope old name symbol).Builds := by
  cases scope with
  | module m => exact rebindInModule_builds m old name symbol
  | function f => exact rebindInFunction_builds f old name symbol
  | detached => exact .pure _

theorem setValueName_builds (v : ValueRef) (name : String) : (setValueName v name).Builds := by
  intro ctx u ctx' run
  obtain ⟨scope, record, bound, mid, _, _, entered, rfl⟩ := setValueName_parts run
  exact (bindIn_builds scope record.name name _ ctx bound mid entered).tail
    (.revise (fun _ _ => ⟨rfl, .same _⟩) fun _ _ => rfl)

theorem renamedBlock_builds {b : BlockRef} {record : BlockRecord} {scope : NameScope}
    {old bound : Option String} {name : String} (read : ctx.block b = .ok record)
    (run : (bindIn scope old name (.block b) ctx).result = .ok (bound, ctx')) :
    ctx.Builds (ctx'.setBlockName b bound) := by
  have entered := bindIn_builds scope old name (.block b) ctx bound ctx' run
  obtain ⟨record', read', _⟩ := entered.grows.block read
  exact entered.tail (.blockName read' bound)

theorem setBlockName_builds (b : BlockRef) (name : String) : (setBlockName b name).Builds := by
  intro ctx u ctx' run
  obtain ⟨record, bound, mid, read, entered, rfl⟩ := setBlockName_parts run
  exact renamedBlock_builds read entered

theorem adoptNames_builds (f : FunctionRef) (is : List InstructionRef) :
    (adoptNames f is).Builds := by
  induction is with
  | nil => exact .pure _
  | cons i rest ih =>
    refine .bind (.read _) fun name => ?_
    cases name with
    | none => exact ih
    | some name =>
      exact .bind (rebindInFunction_builds _ _ _ _) fun _ =>
        .bind (setValueName_changes _ _) fun _ => ih

theorem adoptBlockName_builds (f : FunctionRef) (b : BlockRef) : (adoptBlockName f b).Builds := by
  intro ctx u ctx' run
  simp only [adoptBlockName, bind_eq_ok, read_eq_ok] at run
  obtain ⟨record, _, ⟨read, rfl⟩, run⟩ := run
  cases name : record.name with
  | none =>
    simp only [name, pure_eq_ok] at run
    obtain ⟨_, rfl⟩ := run
    exact .refl
  | some name' =>
    simp only [name, bind_eq_ok, change_eq_ok] at run
    obtain ⟨bound, mid, table, rfl⟩ := run
    have entered : (bindIn (.function f) none name' (.block b) ctx).result = .ok (bound, mid) := table
    exact renamedBlock_builds read entered

/-! ### Modules, globals and functions -/

theorem createModule_builds (name : String) : (createModule name).Builds := by
  refine .bind (.emit _) fun _ => ?_
  intro ctx _ ctx' run
  obtain ⟨_, rfl⟩ := Prod.mk.inj (Except.ok.inj run)
  exact .single (.module name)

theorem createGlobal_builds (wf : ctx.WellFormed) {m : ModuleRef} {spec : GlobalSpec} {g : GlobalRef}
    (run : (createGlobal m spec ctx).result = .ok (g, ctx')) : ctx.Builds ctx' := by
  obtain ⟨position, ty, mid, bound, last, checked, _, typed, rfl, table, rfl⟩ :=
    createGlobal_parts run
  obtain ⟨_, _, shaped, _⟩ := pointerType_spec wf typed
  have pointed := pointerType_builds _ _ ctx ty mid typed
  have added : ctx.Builds (mid.addGlobal ty.type (spec.record m) position) :=
    pointed.tail (.global shaped fun init given =>
      pointed.grows.valueType (valueType_of_check (checked init given)))
  have entered := rebindInModule_builds _ _ _ _ _ bound last table
  exact (added.trans entered).tail (.revise (fun _ _ => ⟨rfl, .same _⟩) fun _ _ => rfl)

theorem setGlobalLinkage_builds (g : GlobalRef) (linkage : Linkage) :
    (setGlobalLinkage g linkage).Builds := by
  intro ctx u ctx' run
  simp only [setGlobalLinkage, modifyGlobal, bind_eq_ok, read_eq_ok, change_eq_ok] at run
  obtain ⟨gr, _, ⟨known, rfl⟩, rfl⟩ := run
  refine .single (.revise (fun r stored => ?_) fun r stored => ?_)
  · exact ⟨rfl, kind_of_stored known stored ▸ .global rfl rfl⟩
  · rw [kind_of_stored known stored]
    rfl

theorem setInitializer_builds (g : GlobalRef) (initializer : Option ConstantRef) :
    (setInitializer g initializer).Builds := by
  intro ctx u ctx' run
  obtain ⟨gr, known, checked, rfl⟩ := setInitializer_parts run
  refine .single (.initializer known fun init given => ?_)
  obtain ⟨_, checked⟩ := checked init given
  exact valueType_of_check checked

theorem createFunction_builds (wf : ctx.WellFormed) {signature : FunctionTypeRef}
    {linkage : Linkage} {name : String} {m : ModuleRef} {f : FunctionRef}
    (run : (createFunction signature linkage name m ctx).result = .ok (f, ctx')) :
    ctx.Builds ctx' := by
  obtain ⟨ty, mid, result, params, variadic, args, filled, mr, bound, last, typed, rfl, signed, argued,
    _, table, rfl⟩ := createFunction_parts run
  obtain ⟨_, wf₁, shaped, _⟩ := pointerType_spec wf typed
  have known : ∀ t ∈ params, (mid.allocValue
      { type := ty.type, kind := .function { module := m, signature, linkage } }).2.HasType t :=
    fun t mem => (allocValue_grows _).hasType
      (wf₁.hasType_inner signed (List.mem_cons_of_mem _ mem))
  have row := allocArguments_row known argued
  have size : (mid.allocValue
      { type := ty.type, kind := .function { module := m, signature, linkage } }).2.values.size =
    mid.values.size + 1 := Array.size_push _
  simp only [size, Nat.zero_add] at row
  have added := (pointerType_builds _ _ ctx ty mid typed).tail
    (.function shaped signed (allocArguments_spec known argued) row)
  have entered := rebindInModule_builds _ _ _ _ _ bound last table
  exact (added.trans entered).tail (.revise (fun _ _ => ⟨rfl, .same _⟩) fun _ _ => rfl)

theorem setFunctionLinkage_builds (f : FunctionRef) (linkage : Linkage) :
    (setFunctionLinkage f linkage).Builds :=
  modifyFunction_builds f fun _ => ⟨rfl, rfl, rfl, .refl _⟩

theorem setFunctionConvention_builds (f : FunctionRef) (convention : CallingConv) :
    (setFunctionConvention f convention).Builds :=
  modifyFunction_builds f fun _ => ⟨rfl, rfl, rfl, .refl _⟩

theorem globalString_builds (wf : ctx.WellFormed) {m : ModuleRef} {text name : String}
    {c : ConstantRef} (run : (globalString m text name ctx).result = .ok (c, ctx')) :
    ctx.Builds ctx' := by
  simp only [globalString, bind_eq_ok, read_eq_ok] at run
  obtain ⟨init, _, stored, type, _, ⟨_, rfl⟩, g, _, made, word, _, typed, zero, _, counted, run⟩ := run
  obtain ⟨_, wf₁, r₁, read₁, kind₁⟩ := constantString_spec wf stored
  obtain ⟨_, wf₂, _⟩ := createGlobal_spec wf₁ (by
    intro other same _
    obtain rfl := Option.some.inj same
    exact ⟨r₁, (value_eq_ok.mp read₁).2.1, .inl (by rw [kind₁]; rfl)⟩) made
  obtain ⟨_, wf₃, _⟩ := integerType_spec wf₂ typed
  obtain ⟨_, wf₄, _⟩ := constantSigned_spec wf₃ counted
  exact ((((constantString_builds wf stored).trans (createGlobal_builds wf₁ made)).trans
    (integerType_builds _ _ word _ typed)).trans (constantSigned_builds wf₃ counted)).trans
      (elementPtr_builds wf₄ run)

/-! ### Blocks and instructions -/

theorem insertBlock_builds (b : BlockRef) (f : FunctionRef) (before : Option BlockRef) :
    (insertBlock b f before).Builds := by
  intro ctx u ctx' run
  obtain ⟨br, fr, position, mid, br', read, loose, known, _, _, _, entered, _, adopted⟩ :=
    insertBlock_parts run
  have placed : ctx.Builds (ctx.placeBlock b f position) := .single (.place read loose known)
  exact (placed.trans (adoptBlockName_builds f b _ () mid entered)).trans
    (adoptNames_builds f _ mid () ctx' adopted)

theorem createBlock_builds (name : String) (parent : Option FunctionRef)
    (before : Option BlockRef) : (createBlock name parent before).Builds := by
  refine .bind (.update fun _ => .single (.block _)) fun b => ?_
  cases parent with
  | none => exact .bind (.require _ _) fun _ => .pure _
  | some f => exact .bind (insertBlock_builds b f before) fun _ => .pure _

/-- An instruction is appended to an open block only. -/
theorem append_builds (b : BlockRef) (type : TypeRef) (operation : Operation) (name : String) :
    (append b type operation name).Builds := by
  intro ctx i ctx' run
  obtain ⟨_, _, opened, _⟩ := bind_eq_ok.mp run
  obtain ⟨opened', rfl⟩ := read_eq_ok.mp opened
  obtain ⟨_, rfl, named⟩ := append_parts run
  have added : ctx.Builds (ctx.addInstruction b type operation) :=
    .single (.instruction (checkOpen_eq_ok.mp opened'))
  rcases named with ⟨_, rfl⟩ | ⟨_, named⟩
  · exact added
  · exact added.trans (setValueName_builds _ name _ () ctx' named)

theorem createCall_builds (callee : ValueRef) (args : List ValueRef) (name : String)
    (b : BlockRef) : (createCall callee args name b).Builds :=
  .bind (.read _) fun _ => .bind (.read _) fun _ => .bind (.read _) fun _ => .bind (.read _) fun _ =>
    .bind (append_builds _ _ _ _) fun _ => .pure _

theorem createReturn_builds (value : Option ValueRef) (b : BlockRef) :
    (createReturn value b).Builds := by
  refine .bind (.read _) fun _ => ?_
  cases value with
  | none => exact .bind (internType_builds _) fun _ => .bind (append_builds _ _ _ _) fun _ => .pure _
  | some v =>
    exact .bind (.read _) fun _ => .bind (internType_builds _) fun _ =>
      .bind (append_builds _ _ _ _) fun _ => .pure _

theorem createBranch_builds (target b : BlockRef) : (createBranch target b).Builds :=
  .bind (internType_builds _) fun _ => .bind (append_builds _ _ _ _) fun _ => .pure _

theorem createCondBranch_builds (cond : ValueRef) (ifTrue ifFalse b : BlockRef) :
    (createCondBranch cond ifTrue ifFalse b).Builds :=
  .bind (.read _) fun _ => .bind (.read _) fun _ => .bind (internType_builds _) fun _ =>
    .bind (append_builds _ _ _ _) fun _ => .pure _

theorem setCallConvention_builds (c : CallRef) (convention : CallingConv) :
    (setCallConvention c convention).Builds := by
  intro ctx u ctx' run
  simp only [setCallConvention, bind_eq_ok, read_eq_ok] at run
  obtain ⟨⟨parent, operation⟩, _, ⟨read, rfl⟩, run⟩ := run
  obtain ⟨value, read', kind⟩ := instruction_eq_ok.mp read
  cases operation with
  | call callee args old =>
    obtain rfl := change_eq_ok.mp run
    have old {r : ValueRecord} (stored : ctx.values[c.value.index]? = some r) : value = r :=
      Option.some.inj ((value_eq_ok.mp read').2.1.symm.trans stored)
    refine .single (.revise (fun r stored => ?_) fun r stored => ?_)
    · obtain rfl := old stored
      exact ⟨rfl, kind ▸ .instruction rfl rfl⟩
    · obtain rfl := old stored
      rw [kind]
      rfl
  | _ =>
    obtain ⟨_, rfl⟩ := pure_eq_ok.mp run
    exact .refl

end Build

namespace Request

variable {ctx ctx' : Context}

/-- Every request but the erasure of a module is a number of elementary changes. -/
theorem builds (wf : ctx.WellFormed) {request : Request} {answers : List Handle}
    (kept : ∀ m, request ≠ .eraseModule m)
    (run : (request.run ctx).result = .ok (answers, ctx')) : ctx.Builds ctx' := by
  have obeyed {α : Type} {step : Build α} {handle : α → Handle} (builds : step.Builds)
      (run : ((do return [handle (← step)] : Build (List Handle)) ctx).result =
        .ok (answers, ctx')) : ctx.Builds ctx' := by
    obtain ⟨a, built, _⟩ := answer_eq_ok run
    exact builds ctx a ctx' built
  have done {step : Build Unit} (builds : step.Builds)
      (run : ((do step; return [] : Build (List Handle)) ctx).result = .ok (answers, ctx')) :
      ctx.Builds ctx' := by
    obtain ⟨built, _⟩ := silent_eq_ok run
    exact builds ctx () ctx' built
  cases request with
  | voidType | labelType => exact obeyed (Build.internType_builds _) run
  | integerType => exact obeyed (Build.integerType_builds _) run
  | pointerType => exact obeyed (Build.pointerType_builds _ _) run
  | arrayType => exact obeyed (Build.arrayType_builds _ _) run
  | functionType => exact obeyed (Build.functionType_builds _ _ _) run
  | constantInt value built =>
    obtain ⟨c, made, _⟩ := answer_eq_ok run
    exact Build.constantInt_builds wf built made
  | constantSigned =>
    obtain ⟨c, made, _⟩ := answer_eq_ok run
    exact Build.constantSigned_builds wf made
  | constantBool =>
    obtain ⟨c, made, _⟩ := answer_eq_ok run
    exact Build.constantBool_builds wf made
  | constantString =>
    obtain ⟨c, made, _⟩ := answer_eq_ok run
    exact Build.constantString_builds wf made
  | elementPtr =>
    obtain ⟨c, made, _⟩ := answer_eq_ok run
    exact Build.elementPtr_builds wf made
  | createModule => exact obeyed (Build.createModule_builds _) run
  | eraseModule m => exact absurd rfl (kept m)
  | createGlobal =>
    obtain ⟨g, made, _⟩ := answer_eq_ok run
    exact Build.createGlobal_builds wf made
  | setInitializer => exact done (Build.setInitializer_builds _ _) run
  | setGlobalLinkage => exact done (Build.setGlobalLinkage_builds _ _) run
  | globalString =>
    obtain ⟨c, made, _⟩ := answer_eq_ok run
    exact Build.globalString_builds wf made
  | createFunction =>
    obtain ⟨f, made, _⟩ := answer_eq_ok run
    exact Build.createFunction_builds wf made
  | setFunctionLinkage => exact done (Build.setFunctionLinkage_builds _ _) run
  | setFunctionConvention => exact done (Build.setFunctionConvention_builds _ _) run
  | setValueName => exact done (Build.setValueName_builds _ _) run
  | setBlockName => exact done (Build.setBlockName_builds _ _) run
  | createBlock => exact obeyed (Build.createBlock_builds _ _ _) run
  | insertBlock => exact done (Build.insertBlock_builds _ _ _) run
  | createCall => exact obeyed (Build.createCall_builds _ _ _ _) run
  | createReturn => exact obeyed (Build.createReturn_builds _ _) run
  | createBranch => exact obeyed (Build.createBranch_builds _ _) run
  | createCondBranch => exact obeyed (Build.createCondBranch_builds _ _ _ _) run
  | setCallConvention => exact done (Build.setCallConvention_builds _ _) run

theorem builds_or_erases (wf : ctx.WellFormed) {request : Request} {answers : List Handle}
    (run : (request.run ctx).result = .ok (answers, ctx')) : ctx.Builds ctx' ∨
      ∃ m mr, request = .eraseModule m ∧ ctx.module m = .ok mr ∧ ctx.Erases m ctx' := by
  by_cases erasure : ∃ m, request = .eraseModule m
  · obtain ⟨m, rfl⟩ := erasure
    obtain ⟨built, _⟩ := silent_eq_ok run
    obtain ⟨⟨mr, live⟩, erases, _⟩ := Build.eraseModule_spec wf built
    exact .inr ⟨m, mr, rfl, live, erases⟩
  · exact .inl (builds wf (fun m same => erasure ⟨m, same⟩) run)

end Request

open Context

/-- What new contexts have, and elementary changes and erasures keep, every context has. -/
theorem World.Reachable.invariant_of_elementary {P : Context → Prop} (new : ∀ id, P (.new id))
    (elementary : ∀ ctx ctx' : Context, ctx.Elementary ctx' → P ctx → P ctx')
    (erase : ∀ (ctx ctx' : Context) (m : ModuleRef), ctx.WellFormed → ctx'.WellFormed →
      ctx.Erases m ctx' → P ctx → P ctx')
    {w : World} (reachable : w.Reachable) : ∀ ctx ∈ w.contexts, P ctx := by
  refine reachable.invariant new fun ctx ctx' request answers wf admitted run before => ?_
  rcases Request.builds_or_erases wf run with builds | ⟨m, _, _, _, erases⟩
  · clear run
    induction builds with
    | refl => exact before
    | tail _ step ih => exact elementary _ _ step ih
  · obtain ⟨_, wf', _⟩ := Request.effect wf admitted run
    exact erase ctx ctx' m wf wf' erases before

end ModuleIR
