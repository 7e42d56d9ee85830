import ModuleIR.Proofs.Steps.Uniqued
import ModuleIR.Proofs.World.Effects

set_option autoImplicit false

/-!
# What happens to the tables of uniqued entities

Whatever a request builds, types are added by being asked for under their shape, and constants by
being asked for under their content. `Context.Interns` is the closure of these two steps, and every
request but an erasure is one. What both steps preserve holds for good: types are made of what they may
be made of, and no content is tabled twice.
-/
namespace ModuleIR

namespace Context

/-- Types and constants are asked for, and everything else may change. -/
inductive Interns : Context → Context → Prop
  | rest {ctx ctx' : Context} (id : ctx'.id = ctx.id) (types : ctx'.types = ctx.types)
      (typeTable : ctx'.typeTable = ctx.typeTable)
      (constantTable : ctx'.constantTable = ctx.constantTable) : Interns ctx ctx'
  | type {ctx : Context} {shape : Shape} (composes : ctx.Composes shape) :
      Interns ctx (ctx.internType shape).2
  | constant {ctx : Context} (key : ConstantKey) (record : ValueRecord) :
      Interns ctx (ctx.internConstant key record).2
  | trans {ctx mid ctx' : Context} (first : Interns ctx mid) (second : Interns mid ctx') :
      Interns ctx ctx'

instance : Std.Refl Interns := ⟨fun _ => .rest rfl rfl rfl rfl⟩

instance : IsTrans Context Interns := ⟨fun _ _ _ => .trans⟩

end Context

namespace Build

def Interns {α : Type} (step : Build α) : Prop := Obeys Context.Interns step

/-! ### Types and constants -/

theorem interning : Interning Context.Interns where
  types _ _ composes := .type composes
  constants _ key record _ _ := .constant key record

/-! ### Modules, globals and functions -/

theorem allocValue_interns (record : ValueRecord) : (allocValue record).Interns :=
  .bind (.read _) fun _ => .update fun _ => .rest rfl rfl rfl rfl

theorem changeValue_interns (v : ValueRef) (f : ValueRecord → ValueRecord) :
    (change (·.modifyValue v f)).Interns :=
  .change fun _ => .rest rfl rfl rfl rfl

theorem changeBlock_interns (b : BlockRef) (f : BlockRecord → BlockRecord) :
    (change (·.modifyBlock b f)).Interns :=
  .change fun _ => .rest rfl rfl rfl rfl

theorem changeModule_interns (m : ModuleRef) (f : ModuleRecord → ModuleRecord) :
    (change (·.modifyModule m f)).Interns :=
  .change fun _ => .rest rfl rfl rfl rfl

theorem rebindInModule_interns (m : ModuleRef) (old : Option String) (name : String)
    (symbol : Symbol) : (rebindInModule m old name symbol).Interns :=
  .bind (.read _) fun _ => .bind (changeModule_interns _ _) fun _ => .pure _

theorem rebindInFunction_interns (f : FunctionRef) (old : Option String) (name : String)
    (symbol : Symbol) : (rebindInFunction f old name symbol).Interns :=
  .bind (.read _) fun _ => .bind (changeValue_interns _ _) fun _ => .pure _

theorem createModule_interns (name : String) : (createModule name).Interns := by
  refine .bind (.emit _) fun _ => ?_
  intro ctx _ ctx' run
  obtain ⟨_, rfl⟩ := Prod.mk.inj (Except.ok.inj run)
  exact .rest rfl rfl rfl rfl

theorem createGlobal_interns (m : ModuleRef) (spec : GlobalSpec) : (createGlobal m spec).Interns := by
  rw [createGlobal_eq]
  exact .bind (.read _) fun _ => .bind (.read _) fun _ => .bind (interning.pointerType _ _) fun _ =>
    .bind (allocValue_interns _) fun _ => .bind (changeModule_interns _ _) fun _ =>
      .bind (rebindInModule_interns _ _ _ _) fun _ => .bind (changeValue_interns _ _) fun _ =>
        .bind (.read _) fun _ => .bind (.emit _) fun _ => .pure _

theorem modifyGlobal_interns (g : GlobalRef) (f : GlobalRecord → GlobalRecord) :
    (modifyGlobal g f).Interns :=
  .bind (.read _) fun _ => changeValue_interns _ _

theorem setInitializer_interns (g : GlobalRef) (initializer : Option ConstantRef) :
    (setInitializer g initializer).Interns := by
  cases initializer with
  | none => exact modifyGlobal_interns g _
  | some init => exact .bind (.read _) fun _ => modifyGlobal_interns g _

theorem allocArguments_interns (f : FunctionRef) (position : Nat) (types : List TypeRef) :
    (allocArguments f position types).Interns := by
  induction types generalizing position with
  | nil => exact .pure _
  | cons type rest ih =>
    exact .bind (allocValue_interns _) fun _ => .bind (ih (position + 1)) fun _ => .pure _

theorem modifyFunction_interns (f : FunctionRef) (g : FunctionRecord → FunctionRecord) :
    (modifyFunction f g).Interns :=
  .bind (.read _) fun _ => changeValue_interns _ _

theorem createFunction_interns (signature : FunctionTypeRef) (linkage : Linkage) (name : String)
    (m : ModuleRef) : (createFunction signature linkage name m).Interns :=
  .bind (interning.pointerType _ _) fun _ => .bind (allocValue_interns _) fun _ =>
    .bind (.read _) fun _ => .bind (allocArguments_interns _ _ _) fun _ =>
      .bind (modifyFunction_interns _ _) fun _ => .bind (.read _) fun _ =>
        .bind (changeModule_interns _ _) fun _ => .bind (rebindInModule_interns _ _ _ _) fun _ =>
          .bind (changeValue_interns _ _) fun _ => .bind (.read _) fun _ => .bind (.emit _) fun _ =>
            .pure _

theorem globalString_interns (m : ModuleRef) (text name : String) :
    (globalString m text name).Interns :=
  .bind (interning.constantString _ _) fun _ => .bind (.read _) fun _ =>
    .bind (createGlobal_interns _ _) fun _ => .bind (interning.integerType _) fun _ =>
      .bind (interning.constantSigned _ _) fun _ => interning.elementPtr _ _ _

/-! ### Names, blocks and instructions -/

theorem bindIn_interns (scope : NameScope) (old : Option String) (name : String)
    (symbol : Symbol) : (bindIn scope old name symbol).Interns := by
  cases scope with
  | module m => exact rebindInModule_interns _ _ _ _
  | function f => exact rebindInFunction_interns _ _ _ _
  | detached => exact .pure _

theorem setValueName_interns (v : ValueRef) (name : String) : (setValueName v name).Interns := by
  rw [setValueName_eq]
  refine .bind (.read _) fun scope => .bind (.read _) fun record => ?_
  have renamed := (bindIn_interns scope record.name name (.value v)).bind fun bound =>
    changeValue_interns v fun r => { r with name := bound }
  cases named : !name.isEmpty with
  | true => exact .bind (.read _) fun _ => .bind (.require _ _) fun _ => renamed
  | false => exact renamed

theorem setBlockName_interns (b : BlockRef) (name : String) : (setBlockName b name).Interns := by
  refine .bind (.read _) fun record => ?_
  cases record.parent with
  | none => exact .bind (.pure _) fun _ => changeBlock_interns _ _
  | some f => exact .bind (rebindInFunction_interns _ _ _ _) fun _ => changeBlock_interns _ _

theorem adoptNames_interns (f : FunctionRef) (is : List InstructionRef) :
    (adoptNames f is).Interns := by
  induction is with
  | nil => exact .pure _
  | cons i rest ih =>
    refine .bind (.read _) fun name => ?_
    cases name with
    | none => exact ih
    | some name =>
      exact .bind (rebindInFunction_interns _ _ _ _) fun _ =>
        .bind (changeValue_interns _ _) fun _ => ih

theorem adoptBlockName_interns (f : FunctionRef) (b : BlockRef) : (adoptBlockName f b).Interns := by
  refine .bind (.read _) fun record => ?_
  cases record.name with
  | none => exact .pure _
  | some name =>
    exact .bind (rebindInFunction_interns _ _ _ _) fun _ => changeBlock_interns _ _

theorem insertBlock_interns (b : BlockRef) (f : FunctionRef) (before : Option BlockRef) :
    (insertBlock b f before).Interns := by
  refine .bind (.read _) fun record => ?_
  cases record.parent with
  | some existing => exact .bind (.read _) fun _ => .fail _ _
  | none =>
    exact .bind (.read _) fun _ => .bind (.read _) fun _ => .bind (modifyFunction_interns _ _)
      fun _ => .bind (changeBlock_interns _ _) fun _ => .bind (adoptBlockName_interns _ _) fun _ =>
        .bind (.read _) fun _ => .bind (adoptNames_interns _ _) fun _ => .bind (.read _) fun _ =>
          .bind (.read _) fun _ => .emit _

theorem createBlock_interns (name : String) (parent : Option FunctionRef)
    (before : Option BlockRef) : (createBlock name parent before).Interns := by
  refine .bind (.update fun _ => .rest rfl rfl rfl rfl) fun b => ?_
  cases parent with
  | none => exact .bind (.require _ _) fun _ => .pure _
  | some f => exact .bind (insertBlock_interns _ _ _) fun _ => .pure _

theorem append_interns (b : BlockRef) (type : TypeRef) (operation : Operation) (name : String) :
    (append b type operation name).Interns := by
  refine .bind (.read _) fun _ => .bind (allocValue_interns _) fun value =>
    .bind (changeBlock_interns _ _) fun _ => ?_
  split
  · exact .bind (setValueName_interns _ _) fun _ => .pure _
  · exact .pure _

theorem createCall_interns (callee : ValueRef) (args : List ValueRef) (name : String)
    (b : BlockRef) : (createCall callee args name b).Interns :=
  .bind (.read _) fun _ => .bind (.read _) fun _ => .bind (.read _) fun _ => .bind (.read _) fun _ =>
    .bind (append_interns _ _ _ _) fun _ => .pure _

theorem createReturn_interns (value : Option ValueRef) (b : BlockRef) :
    (createReturn value b).Interns := by
  refine .bind (.read _) fun _ => ?_
  cases value with
  | none =>
    exact .bind (interning.internType rfl) fun _ => .bind (append_interns _ _ _ _) fun _ => .pure _
  | some v =>
    exact .bind (.read _) fun _ => .bind (interning.internType rfl) fun _ =>
      .bind (append_interns _ _ _ _) fun _ => .pure _

theorem createBranch_interns (target b : BlockRef) : (createBranch target b).Interns :=
  .bind (interning.internType rfl) fun _ => .bind (append_interns _ _ _ _) fun _ => .pure _

theorem createCondBranch_interns (cond : ValueRef) (ifTrue ifFalse b : BlockRef) :
    (createCondBranch cond ifTrue ifFalse b).Interns :=
  .bind (.read _) fun _ => .bind (.read _) fun _ => .bind (interning.internType rfl) fun _ =>
    .bind (append_interns _ _ _ _) fun _ => .pure _

theorem setCallConvention_interns (c : CallRef) (convention : CallingConv) :
    (setCallConvention c convention).Interns := by
  refine .bind (.read _) fun record => ?_
  obtain ⟨parent, operation⟩ := record
  cases operation with
  | call callee args old => exact changeValue_interns _ _
  | _ => exact .pure _

end Build

namespace Request

/-- Every request but the erasure of a module does no more to the tables than to ask for types and
constants. -/
theorem run_interns {request : Request} (kept : ∀ m, request ≠ .eraseModule m) :
    request.run.Interns := by
  cases request with
  | voidType | labelType => exact .bind (Build.interning.internType rfl) fun _ => .pure _
  | integerType => exact .bind (Build.interning.integerType _) fun _ => .pure _
  | pointerType => exact .bind (Build.interning.pointerType _ _) fun _ => .pure _
  | arrayType => exact .bind (Build.interning.arrayType _ _) fun _ => .pure _
  | functionType => exact .bind (Build.interning.functionType _ _ _) fun _ => .pure _
  | constantInt => exact .bind (Build.interning.constantInt _) fun _ => .pure _
  | constantSigned => exact .bind (Build.interning.constantSigned _ _) fun _ => .pure _
  | constantBool => exact .bind (Build.interning.constantBool _) fun _ => .pure _
  | constantString => exact .bind (Build.interning.constantString _ _) fun _ => .pure _
  | elementPtr => exact .bind (Build.interning.elementPtr _ _ _) fun _ => .pure _
  | createModule => exact .bind (Build.createModule_interns _) fun _ => .pure _
  | eraseModule m => exact absurd rfl (kept m)
  | createGlobal => exact .bind (Build.createGlobal_interns _ _) fun _ => .pure _
  | setInitializer => exact .bind (Build.setInitializer_interns _ _) fun _ => .pure _
  | setGlobalLinkage => exact .bind (Build.modifyGlobal_interns _ _) fun _ => .pure _
  | globalString => exact .bind (Build.globalString_interns _ _ _) fun _ => .pure _
  | createFunction => exact .bind (Build.createFunction_interns _ _ _ _) fun _ => .pure _
  | setFunctionLinkage | setFunctionConvention =>
    exact .bind (Build.modifyFunction_interns _ _) fun _ => .pure _
  | setValueName => exact .bind (Build.setValueName_interns _ _) fun _ => .pure _
  | setBlockName => exact .bind (Build.setBlockName_interns _ _) fun _ => .pure _
  | createBlock => exact .bind (Build.createBlock_interns _ _ _) fun _ => .pure _
  | insertBlock => exact .bind (Build.insertBlock_interns _ _ _) fun _ => .pure _
  | createCall => exact .bind (Build.createCall_interns _ _ _ _) fun _ => .pure _
  | createReturn => exact .bind (Build.createReturn_interns _ _) fun _ => .pure _
  | createBranch => exact .bind (Build.createBranch_interns _ _) fun _ => .pure _
  | createCondBranch => exact .bind (Build.createCondBranch_interns _ _ _ _) fun _ => .pure _
  | setCallConvention => exact .bind (Build.setCallConvention_interns _ _) fun _ => .pure _

end Request
end ModuleIR
