import ModuleIR.Proofs.Consistency.Listings
import ModuleIR.Proofs.Consistency.Verdicts
import ModuleIR.Proofs.World.Discipline
import ModuleIR.Proofs.World.ValueTypes

set_option autoImplicit false

/-!
# The readings that a handle offers

`Context.Offers` lists what the holder of a handle can read, each reading with the handles that are in
its answer: accessors, checked casts, texts and judgements. On an admitted handle each of them is
consistent, and what it answers is obtained from the handle.
-/
namespace ModuleIR

namespace Context

open Checked (Consistent consistent_ok)

/-- A reading through a handle, with the handles in its answer. -/
inductive Offers (ctx : Context) :
    Handle → ∀ {α : Type}, Checked α → (α → List Handle) → Prop
  | shape {view : TypeView} {t : TypeRef} :
      Offers ctx (.type view t) (ctx.shape t) fun shape => shape.inner.map (.type .any)
  | describeType {view : TypeView} {t : TypeRef} :
      Offers ctx (.type view t) (ctx.describeType t) fun _ => []
  | integerBits {t : IntegerTypeRef} :
      Offers ctx (.type .integer t.type) (ctx.integerBits t) fun _ => []
  | pointer {t : PointerTypeRef} :
      Offers ctx (.type .pointer t.type) (ctx.pointer t) fun parts => [.type .any parts.1]
  | array {t : ArrayTypeRef} :
      Offers ctx (.type .array t.type) (ctx.array t) fun parts => [.type .any parts.1]
  | signature {t : FunctionTypeRef} : Offers ctx (.type .function t.type) (ctx.signature t)
      fun parts => (parts.1 :: parts.2.1).map (.type .any)
  | asIntegerType? {view : TypeView} {t : TypeRef} : Offers ctx (.type view t)
      (ctx.asIntegerType? t) fun cast => cast.toList.map (.type .integer ·.type)
  | asPointerType? {view : TypeView} {t : TypeRef} : Offers ctx (.type view t)
      (ctx.asPointerType? t) fun cast => cast.toList.map (.type .pointer ·.type)
  | asArrayType? {view : TypeView} {t : TypeRef} : Offers ctx (.type view t)
      (ctx.asArrayType? t) fun cast => cast.toList.map (.type .array ·.type)
  | asFunctionType? {view : TypeView} {t : TypeRef} : Offers ctx (.type view t)
      (ctx.asFunctionType? t) fun cast => cast.toList.map (.type .function ·.type)
  | valueType {view : ValueView} {v : ValueRef} :
      Offers ctx (.value view v) (ctx.valueType v) fun type => [.type .any type]
  | valueName {view : ValueView} {v : ValueRef} :
      Offers ctx (.value view v) (ctx.valueName v) fun _ => []
  | valueText {view : ValueView} {v : ValueRef} :
      Offers ctx (.value view v) (ctx.valueText v) fun _ => []
  | asConstant? {view : ValueView} {v : ValueRef} : Offers ctx (.value view v)
      (ctx.asConstant? v) fun cast => cast.toList.map (.value .constant ·.value)
  | asConstantInt? {view : ValueView} {v : ValueRef} : Offers ctx (.value view v)
      (ctx.asConstantInt? v) fun cast => cast.toList.map (.value .constantInt ·.value)
  | asGlobal? {view : ValueView} {v : ValueRef} : Offers ctx (.value view v)
      (ctx.asGlobal? v) fun cast => cast.toList.map (.value .global ·.value)
  | asFunction? {view : ValueView} {v : ValueRef} : Offers ctx (.value view v)
      (ctx.asFunction? v) fun cast => cast.toList.map (.value .function ·.value)
  | asArgument? {view : ValueView} {v : ValueRef} : Offers ctx (.value view v)
      (ctx.asArgument? v) fun cast => cast.toList.map (.value .argument ·.value)
  | asInstruction? {view : ValueView} {v : ValueRef} : Offers ctx (.value view v)
      (ctx.asInstruction? v) fun cast => cast.toList.map (.value .instruction ·.value)
  | asCall? {view : ValueView} {v : ValueRef} : Offers ctx (.value view v)
      (ctx.asCall? v) fun cast => cast.toList.map (.value .call ·.value)
  | asReturn? {view : ValueView} {v : ValueRef} : Offers ctx (.value view v)
      (ctx.asReturn? v) fun cast => cast.toList.map (.value .ret ·.value)
  | asBranch? {view : ValueView} {v : ValueRef} : Offers ctx (.value view v)
      (ctx.asBranch? v) fun cast => cast.toList.map (.value .branch ·.value)
  | constantInt {c : ConstantIntRef} :
      Offers ctx (.value .constantInt c.value) (ctx.constantInt c) fun _ => []
  | global {g : GlobalRef} : Offers ctx (.value .global g.value) (ctx.global g)
      fun record => (ValueKind.global record).handles
  | function {f : FunctionRef} : Offers ctx (.value .function f.value) (ctx.function f)
      fun record => (ValueKind.function record).handles
  | functionArgument {f : FunctionRef} {position : Nat} : Offers ctx (.value .function f.value)
      (ctx.functionArgument f position) fun argument => [.value .argument argument.value]
  | functionState {f : FunctionRef} :
      Offers ctx (.value .function f.value) (ctx.functionState f) fun _ => []
  | functionText {f : FunctionRef} :
      Offers ctx (.value .function f.value) (ctx.functionText f) fun _ => []
  | verifyFunction {f : FunctionRef} :
      Offers ctx (.value .function f.value) (ctx.verifyFunction f) fun _ => []
  | argument {a : ArgumentRef} : Offers ctx (.value .argument a.value) (ctx.argument a)
      fun record => (ValueKind.argument record).handles
  | instruction {i : InstructionRef} : Offers ctx (.value .instruction i.value)
      (ctx.instruction i) fun record => (ValueKind.instruction record).handles
  | call {c : CallRef} : Offers ctx (.value .call c.value) (ctx.call c)
      fun parts => (parts.1 :: parts.2.1).map (.value .any)
  | calledType {c : CallRef} : Offers ctx (.value .call c.value) (ctx.calledType c)
      fun signature => [.type .function signature.type]
  | returnValue {r : ReturnRef} : Offers ctx (.value .ret r.value) (ctx.returnValue r)
      fun value => value.toList.map (.value .any)
  | branchSuccessors {b : BranchRef} : Offers ctx (.value .branch b.value)
      (ctx.branchSuccessors b) fun blocks => blocks.map .block
  | block {b : BlockRef} : Offers ctx (.block b) (ctx.block b) BlockRecord.handles
  | terminator? {b : BlockRef} : Offers ctx (.block b) (ctx.terminator? b)
      fun last => last.toList.map (.value .instruction ·.value)
  | module {m : ModuleRef} : Offers ctx (.module m) (ctx.module m) ModuleRecord.handles
  | findFunction? {m : ModuleRef} {name : String} : Offers ctx (.module m)
      (ctx.findFunction? m name) fun found => found.toList.map (.value .function ·.value)
  | findGlobal? {m : ModuleRef} {name : String} : Offers ctx (.module m)
      (ctx.findGlobal? m name) fun found => found.toList.map (.value .global ·.value)
  | moduleText {m : ModuleRef} : Offers ctx (.module m) (ctx.moduleText m) fun _ => []
  | verifyModule {m : ModuleRef} : Offers ctx (.module m) (ctx.verifyModule m) fun _ => []

variable {ctx : Context}

/-! ### Checked casts -/

def castType? (ctx : Context) {α : Type} (view : TypeView) (t : TypeRef) (typed : α) :
    Checked (Option α) :=
  return if view.accepts (← ctx.shape t) then some typed else none

def castValue? (ctx : Context) {α : Type} (view : ValueView) (v : ValueRef) (typed : α) :
    Checked (Option α) :=
  return if view.accepts (← ctx.value v).kind then some typed else none

section Casts

variable {α : Type} {t : TypeRef} {v : ValueRef} {typed c : α}

theorem castType?_eq_some {view : TypeView} :
    ctx.castType? view t typed = .ok (some c) ↔ typed = c ∧ ctx.Reads (.type view t) := by
  simp only [castType?, Checked.bind_eq_ok, Checked.pure_eq, Except.ok.injEq,
    Option.ite_none_right_eq_some, Option.some.injEq]
  exact ⟨fun ⟨shape, read, accepted, same⟩ => ⟨same, shape, read, accepted⟩,
    fun ⟨same, shape, read, accepted⟩ => ⟨shape, read, accepted, same⟩⟩

theorem castValue?_eq_some {view : ValueView} :
    ctx.castValue? view v typed = .ok (some c) ↔ typed = c ∧ ctx.Reads (.value view v) := by
  simp only [castValue?, Checked.bind_eq_ok, Checked.pure_eq, Except.ok.injEq,
    Option.ite_none_right_eq_some, Option.some.injEq]
  exact ⟨fun ⟨r, read, accepted, same⟩ => ⟨same, r, read, accepted⟩,
    fun ⟨same, r, read, accepted⟩ => ⟨r, read, accepted, same⟩⟩

theorem castValue?_eq {view : ValueView} {next : ValueRecord → Checked (Option α)}
    (each : ∀ r, next r = .ok (if view.accepts r.kind then some typed else none)) :
    (ctx.value v >>= next) = ctx.castValue? view v typed :=
  congrArg _ (funext each)

theorem castInstruction?_eq {accept : Operation → Bool} {view : ValueView} {make : InstructionRef → α}
    (tests : ∀ kind, view.accepts kind = match kind with
      | .instruction i => accept i.operation
      | _ => false) :
    (do return (← ctx.asInstructionWith? accept v).map make) = ctx.castValue? view v (make ⟨v⟩) := by
  have plain : ctx.asInstructionWith? accept v = ctx.castValue? view v ⟨v⟩ :=
    castValue?_eq fun r => by cases r.kind <;> simp [tests]
  rw [plain, castValue?, castValue?]
  cases ctx.value v <;> simp [apply_ite (Option.map _)]

theorem consistent_castType? {view known : TypeView} (h : ctx.Admits (.type known t)) :
    Consistent (ctx.castType? view t typed) :=
  (consistent_shape h).bind fun _ _ => consistent_ok

theorem consistent_castValue? {view known : ValueView} (h : ctx.Admits (.value known v)) :
    Consistent (ctx.castValue? view v typed) :=
  (consistent_value h).bind fun _ _ => consistent_ok

end Casts

section

variable {t : TypeRef} {v : ValueRef}

theorem asIntegerType?_eq : ctx.asIntegerType? t = ctx.castType? .integer t ⟨t⟩ := rfl

theorem asPointerType?_eq : ctx.asPointerType? t = ctx.castType? .pointer t ⟨t⟩ := rfl

theorem asArrayType?_eq : ctx.asArrayType? t = ctx.castType? .array t ⟨t⟩ := rfl

theorem asFunctionType?_eq : ctx.asFunctionType? t = ctx.castType? .function t ⟨t⟩ := rfl

theorem asConstant?_eq : ctx.asConstant? v = ctx.castValue? .constant v ⟨v⟩ := rfl

theorem asConstantInt?_eq : ctx.asConstantInt? v = ctx.castValue? .constantInt v ⟨v⟩ :=
  castValue?_eq fun r => by cases r.kind <;> rfl

theorem asGlobal?_eq : ctx.asGlobal? v = ctx.castValue? .global v ⟨v⟩ :=
  castValue?_eq fun r => by cases r.kind <;> rfl

theorem asFunction?_eq : ctx.asFunction? v = ctx.castValue? .function v ⟨v⟩ :=
  castValue?_eq fun r => by cases r.kind <;> rfl

theorem asArgument?_eq : ctx.asArgument? v = ctx.castValue? .argument v ⟨v⟩ :=
  castValue?_eq fun r => by cases r.kind <;> rfl

theorem asInstruction?_eq : ctx.asInstruction? v = ctx.castValue? .instruction v ⟨v⟩ :=
  castValue?_eq fun r => by cases r.kind <;> rfl

theorem asCall?_eq : ctx.asCall? v = ctx.castValue? .call v ⟨v⟩ :=
  castInstruction?_eq fun kind => by cases kind <;> rfl

theorem asReturn?_eq : ctx.asReturn? v = ctx.castValue? .ret v ⟨v⟩ :=
  castInstruction?_eq fun kind => by cases kind <;> rfl

theorem asBranch?_eq : ctx.asBranch? v = ctx.castValue? .branch v ⟨v⟩ :=
  castInstruction?_eq fun kind => by cases kind <;> rfl

end

/-- The cast from the handle that a typed handle wraps gives the typed handle back. -/
def CastsBack (ctx : Context) : Handle → Prop
  | .type .integer t => ctx.asIntegerType? t = .ok (some ⟨t⟩)
  | .type .pointer t => ctx.asPointerType? t = .ok (some ⟨t⟩)
  | .type .array t => ctx.asArrayType? t = .ok (some ⟨t⟩)
  | .type .function t => ctx.asFunctionType? t = .ok (some ⟨t⟩)
  | .value .constant v => ctx.asConstant? v = .ok (some ⟨v⟩)
  | .value .constantInt v => ctx.asConstantInt? v = .ok (some ⟨v⟩)
  | .value .global v => ctx.asGlobal? v = .ok (some ⟨v⟩)
  | .value .function v => ctx.asFunction? v = .ok (some ⟨v⟩)
  | .value .argument v => ctx.asArgument? v = .ok (some ⟨v⟩)
  | .value .instruction v => ctx.asInstruction? v = .ok (some ⟨v⟩)
  | .value .call v => ctx.asCall? v = .ok (some ⟨v⟩)
  | .value .ret v => ctx.asReturn? v = .ok (some ⟨v⟩)
  | .value .branch v => ctx.asBranch? v = .ok (some ⟨v⟩)
  | .type .any _ | .value .any _ | .block _ | .module _ => True

theorem Admits.reads {h : Handle} (admitted : ctx.Admits h) (lives : ctx.Lives h) :
    ctx.Reads h := by
  cases h with
  | type view t =>
    obtain ⟨shape, read⟩ := lives
    exact admitted.type (shape_eq_ok.mp read).1
  | value view v =>
    obtain ⟨r, read⟩ := lives
    exact ⟨r, read, admitted.value read⟩
  | block b => exact lives
  | module m => exact lives

/-- A cast undoes the upcasts of a handle that is what it promises. -/
theorem Reads.castsBack {h : Handle} (reads : ctx.Reads h) : ctx.CastsBack h := by
  cases h with
  | type view t => cases view <;> first | trivial | exact castType?_eq_some.mpr ⟨rfl, reads⟩
  | value view v =>
    have cast {α : Type} (typed : α) : ctx.castValue? view v typed = .ok (some typed) :=
      castValue?_eq_some.mpr ⟨rfl, reads⟩
    cases view with
    | any => trivial
    | constant => exact asConstant?_eq.trans (cast _)
    | constantInt => exact asConstantInt?_eq.trans (cast _)
    | global => exact asGlobal?_eq.trans (cast _)
    | function => exact asFunction?_eq.trans (cast _)
    | argument => exact asArgument?_eq.trans (cast _)
    | instruction => exact asInstruction?_eq.trans (cast _)
    | call => exact asCall?_eq.trans (cast _)
    | ret => exact asReturn?_eq.trans (cast _)
    | branch => exact asBranch?_eq.trans (cast _)
  | block b => trivial
  | module m => trivial

/-! ### Accessors that look further than at the entry of the handle -/

theorem consistent_functionArgument {f : FunctionRef} {position : Nat}
    (h : ctx.Admits (.value .function f.value)) :
    Consistent (ctx.functionArgument f position) := by
  refine (consistent_function h).bind fun fr _ => ?_
  cases fr.args[position]? <;> simp

theorem consistent_functionState (wf : ctx.WellFormed) {f : FunctionRef}
    (h : ctx.Admits (.value .function f.value)) : Consistent (ctx.functionState f) := by
  refine (consistent_function h).bind fun fr known => ?_
  have live : ∀ b ∈ fr.blocks, ∃ br, ctx.block b = .ok br := fun b mem => by
    obtain ⟨br, read, _⟩ := wf.function_block known mem
    exact ⟨br, read⟩
  obtain ⟨done, checked, _⟩ := allTerminated_reads wf live
  split
  · exact consistent_ok
  · exact (Consistent.of_ok ⟨done, checked⟩).bind fun _ _ => by split <;> exact consistent_ok

theorem bound_admitted (wf : ctx.WellFormed) {m : ModuleRef} {mr : ModuleRecord}
    (live : ctx.module m = .ok mr) {name : String} {v : ValueRef}
    (bound : mr.names.find? name = some (.value v)) : ctx.Admits (.value .any v) := by
  have mem : Handle.value .any v ∈ mr.names.handles := List.mem_map_of_mem (lookup_mem bound)
  exact fun _ => ((wf.moduleSound live).names _ mem).2

theorem consistent_findFunction? (wf : ctx.WellFormed) {m : ModuleRef} {name : String}
    (h : ctx.Admits (.module m)) : Consistent (ctx.findFunction? m name) := by
  refine (consistent_module h).bind fun mr live => ?_
  split
  · rename_i v bound
    refine (consistent_value (bound_admitted wf live bound)).bind fun r _ => ?_
    cases r.kind <;> exact consistent_ok
  · exact consistent_ok

theorem consistent_findGlobal? (wf : ctx.WellFormed) {m : ModuleRef} {name : String}
    (h : ctx.Admits (.module m)) : Consistent (ctx.findGlobal? m name) := by
  refine (consistent_module h).bind fun mr live => ?_
  split
  · rename_i v bound
    refine (consistent_value (bound_admitted wf live bound)).bind fun r _ => ?_
    cases r.kind <;> exact consistent_ok
  · exact consistent_ok

/-- The callee of a call is a pointer to a function for good, so the type that is called is found
wherever the callee is. -/
theorem consistent_calledType (wf : ctx.WellFormed) (results : ctx.AllHaveResults) {c : CallRef}
    (h : ctx.Admits (.value .call c.value)) : Consistent (ctx.calledType c) := by
  refine (consistent_call h).bind fun parts known => ?_
  obtain ⟨callee, args, convention⟩ := parts
  obtain ⟨o, read, known⟩ := Checked.bind_eq_ok.mp known
  obtain ⟨ir, made, rfl⟩ := operation_eq_ok.mp read
  obtain ⟨record, held, kind⟩ := instruction_eq_ok.mp made
  obtain ⟨parent, operation⟩ := ir
  cases operation with
  | call callee' args' convention' =>
    obtain ⟨rfl, _⟩ := Prod.mk.inj (Except.ok.inj known)
    have operand := operands_admitted wf made callee' (by simp [Operation.operands])
    refine (consistent_calleeSignature? wf operand).bind fun found called => ?_
    obtain ⟨r, live⟩ := value_of_calleeSignature? called
    obtain ⟨r', signature, space, params, variadic, stored, pointed, signed⟩ :=
      results _ record _ held kind
    obtain rfl : r' = r := Option.some.inj (stored.symm.trans (value_eq_ok.mp live).2.1)
    have signature? := calleeSignature?_eq_some.mpr
      ⟨r', space, _, params, variadic, live, pointed, signature_eq_ok.mpr signed⟩
    obtain rfl := Checked.unique called signature?
    exact consistent_ok
  | _ => cases known

/-! ### All readings -/

variable {h : Handle} {α : Type} {reading : Checked α} {handles : α → List Handle}

/-- No reading through an admitted handle comes upon a handle that breaks its promise. -/
theorem Offers.consistent (offers : ctx.Offers h reading handles) (wf : ctx.WellFormed)
    (results : ctx.AllHaveResults) (admitted : ctx.Admits h) : reading.Consistent := by
  cases offers with
  | shape => exact consistent_shape admitted
  | describeType => exact consistent_describeType wf admitted
  | integerBits => exact consistent_integerBits admitted
  | pointer => exact consistent_pointer admitted
  | array => exact consistent_array admitted
  | signature => exact consistent_signature admitted
  | asIntegerType? => exact asIntegerType?_eq ▸ consistent_castType? admitted
  | asPointerType? => exact asPointerType?_eq ▸ consistent_castType? admitted
  | asArrayType? => exact asArrayType?_eq ▸ consistent_castType? admitted
  | asFunctionType? => exact asFunctionType?_eq ▸ consistent_castType? admitted
  | valueType => exact consistent_valueType admitted
  | valueName => exact consistent_valueName admitted
  | valueText => exact (Listing.consistent_valueAlone wf admitted).render
  | asConstant? => exact asConstant?_eq ▸ consistent_castValue? admitted
  | asConstantInt? => exact asConstantInt?_eq ▸ consistent_castValue? admitted
  | asGlobal? => exact asGlobal?_eq ▸ consistent_castValue? admitted
  | asFunction? => exact asFunction?_eq ▸ consistent_castValue? admitted
  | asArgument? => exact asArgument?_eq ▸ consistent_castValue? admitted
  | asInstruction? => exact asInstruction?_eq ▸ consistent_castValue? admitted
  | asCall? => exact asCall?_eq ▸ consistent_castValue? admitted
  | asReturn? => exact asReturn?_eq ▸ consistent_castValue? admitted
  | asBranch? => exact asBranch?_eq ▸ consistent_castValue? admitted
  | constantInt => exact consistent_constantInt admitted
  | global => exact consistent_global admitted
  | function => exact consistent_function admitted
  | functionArgument => exact consistent_functionArgument admitted
  | functionState => exact consistent_functionState wf admitted
  | functionText => exact (Listing.consistent_function wf admitted).render
  | verifyFunction => exact consistent_verifyFunction wf admitted
  | argument => exact consistent_argument admitted
  | instruction => exact consistent_instruction ofInstruction_instruction admitted
  | call => exact consistent_call admitted
  | calledType => exact consistent_calledType wf results admitted
  | returnValue => exact consistent_returnValue admitted
  | branchSuccessors => exact consistent_branchSuccessors admitted
  | block => exact consistent_block admitted
  | terminator? => exact consistent_terminator? wf admitted
  | module => exact consistent_module admitted
  | findFunction? => exact consistent_findFunction? wf admitted
  | findGlobal? => exact consistent_findGlobal? wf admitted
  | moduleText => exact (Listing.consistent_module wf admitted).render
  | verifyModule => exact consistent_verifyModule wf admitted

theorem yields_castType? {view known : TypeView} {t : TypeRef} {typed : α} {cast : Option α}
    {handle : α → Handle} {h' : Handle} (answered : ctx.castType? view t typed = .ok cast)
    (mem : h' ∈ cast.toList.map handle) (gives : handle typed = .type view t) :
    ctx.Yields (.type known t) h' := by
  cases cast with
  | none => cases mem
  | some c =>
    obtain ⟨rfl, shape, read, accepted⟩ := castType?_eq_some.mp answered
    obtain rfl := List.mem_singleton.mp mem
    exact gives ▸ .typeView read accepted

theorem yields_castValue? {view known : ValueView} {v : ValueRef} {typed : α} {cast : Option α}
    {handle : α → Handle} {h' : Handle} (answered : ctx.castValue? view v typed = .ok cast)
    (mem : h' ∈ cast.toList.map handle) (gives : handle typed = .value view v) :
    ctx.Yields (.value known v) h' := by
  cases cast with
  | none => cases mem
  | some c =>
    obtain ⟨rfl, r, read, accepted⟩ := castValue?_eq_some.mp answered
    obtain rfl := List.mem_singleton.mp mem
    exact gives ▸ .valueView read accepted

theorem yields_operation {i : InstructionRef} {o : Operation} {view : ValueView} {h' : Handle}
    (read : ctx.operation i = .ok o) (mem : h' ∈ o.handles) :
    ctx.Yields (.value view i.value) h' := by
  obtain ⟨ir, made, rfl⟩ := operation_eq_ok.mp read
  obtain ⟨r, held, kind⟩ := instruction_eq_ok.mp made
  exact .content held (kind ▸ List.mem_cons_of_mem _ mem)

/-- Whatever handle a reading answers is obtained from the handle that the reading is of. -/
theorem Offers.yields (offers : ctx.Offers h reading handles) {a : α} (read : reading = .ok a)
    {h' : Handle} (mem : h' ∈ handles a) : ctx.Yields h h' := by
  cases offers with
  | describeType | integerBits | valueName | valueText | constantInt | functionState | functionText
    | verifyFunction | moduleText | verifyModule => cases mem
  | shape =>
    obtain ⟨inner, inside, rfl⟩ := List.mem_map.mp mem
    exact .innerType read inside
  | pointer =>
    obtain ⟨shape, read', read⟩ := Checked.bind_eq_ok.mp read
    obtain rfl := List.mem_singleton.mp mem
    cases shape <;> cases read
    exact .innerType read' List.mem_cons_self
  | array =>
    obtain ⟨shape, read', read⟩ := Checked.bind_eq_ok.mp read
    obtain rfl := List.mem_singleton.mp mem
    cases shape <;> cases read
    exact .innerType read' List.mem_cons_self
  | signature =>
    obtain ⟨result, params, variadic⟩ := a
    obtain ⟨inner, inside, rfl⟩ := List.mem_map.mp mem
    exact .innerType (signature_eq_ok.mp read) inside
  | asIntegerType? => exact yields_castType? (asIntegerType?_eq.symm.trans read) mem rfl
  | asPointerType? => exact yields_castType? (asPointerType?_eq.symm.trans read) mem rfl
  | asArrayType? => exact yields_castType? (asArrayType?_eq.symm.trans read) mem rfl
  | asFunctionType? => exact yields_castType? (asFunctionType?_eq.symm.trans read) mem rfl
  | valueType =>
    obtain ⟨r, held, rfl⟩ := valueType_eq_ok.mp read
    obtain rfl := List.mem_singleton.mp mem
    exact .valueType held
  | asConstant? => exact yields_castValue? (asConstant?_eq.symm.trans read) mem rfl
  | asConstantInt? => exact yields_castValue? (asConstantInt?_eq.symm.trans read) mem rfl
  | asGlobal? => exact yields_castValue? (asGlobal?_eq.symm.trans read) mem rfl
  | asFunction? => exact yields_castValue? (asFunction?_eq.symm.trans read) mem rfl
  | asArgument? => exact yields_castValue? (asArgument?_eq.symm.trans read) mem rfl
  | asInstruction? => exact yields_castValue? (asInstruction?_eq.symm.trans read) mem rfl
  | asCall? => exact yields_castValue? (asCall?_eq.symm.trans read) mem rfl
  | asReturn? => exact yields_castValue? (asReturn?_eq.symm.trans read) mem rfl
  | asBranch? => exact yields_castValue? (asBranch?_eq.symm.trans read) mem rfl
  | global =>
    obtain ⟨r, held, kind⟩ := global_eq_ok.mp read
    exact .content held (kind ▸ mem)
  | function =>
    obtain ⟨r, held, kind⟩ := function_eq_ok.mp read
    exact .content held (kind ▸ mem)
  | functionArgument =>
    obtain ⟨fr, known, found⟩ := Checked.bind_eq_ok.mp read
    obtain ⟨r, held, kind⟩ := function_eq_ok.mp known
    obtain rfl := List.mem_singleton.mp mem
    split at found
    · rename_i argument place
      obtain rfl := Except.ok.inj found
      refine .content held (kind ▸ ?_)
      simpa [ValueKind.handles] using .inl ⟨argument, List.mem_of_getElem? place, rfl⟩
    · cases found
  | argument =>
    obtain ⟨r, held, kind⟩ := argument_eq_ok.mp read
    exact .content held (kind ▸ mem)
  | instruction =>
    obtain ⟨r, held, kind⟩ := instruction_eq_ok.mp read
    exact .content held (kind ▸ mem)
  | @call c =>
    obtain ⟨o, known, read⟩ := Checked.bind_eq_ok.mp read
    refine yields_operation (i := c.toInstruction) known ?_
    cases o <;> cases read
    simpa [Operation.handles, Operation.operands, Operation.successors, or_comm] using mem
  | @calledType c =>
    obtain ⟨parts, called, signed⟩ := Checked.bind_eq_ok.mp read
    obtain ⟨o, known, same⟩ := Checked.bind_eq_ok.mp called
    obtain rfl := List.mem_singleton.mp mem
    cases o <;> cases same
    exact .calledType known signed
  | @returnValue r =>
    obtain ⟨o, known, read⟩ := Checked.bind_eq_ok.mp read
    refine yields_operation (i := r.toInstruction) known ?_
    cases o <;> cases read
    simpa [Operation.handles, Operation.operands, Operation.successors] using mem
  | @branchSuccessors b =>
    obtain ⟨o, known, read⟩ := Checked.bind_eq_ok.mp read
    refine yields_operation (i := b.toInstruction) known (List.mem_append_right _ ?_)
    split at read
    · exact Except.ok.inj read ▸ mem
    · cases read
  | block => exact .blockContent read mem
  | terminator? =>
    cases a with
    | none => cases mem
    | some last =>
      obtain rfl := List.mem_singleton.mp mem
      obtain ⟨br, held, _⟩ := Checked.bind_eq_ok.mp read
      refine .blockContent held (List.mem_append_right _ (List.mem_map_of_mem ?_))
      exact List.mem_of_getLast? ((terminator?_eq_some held).mp read).1
  | module => exact .moduleContent read mem
  | findFunction? =>
    cases a with
    | none => cases mem
    | some f =>
      obtain rfl := List.mem_singleton.mp mem
      exact .findFunction read
  | findGlobal? =>
    cases a with
    | none => cases mem
    | some g =>
      obtain rfl := List.mem_singleton.mp mem
      exact .findGlobal read

end Context
end ModuleIR
