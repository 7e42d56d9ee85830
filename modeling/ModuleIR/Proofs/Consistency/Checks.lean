import ModuleIR.Proofs.Consistency.Reads
import ModuleIR.Proofs.Steps.Instructions
import ModuleIR.Proofs.Verify.Verdicts

set_option autoImplicit false

/-!
# Checks are consistent

What a building step checks ahead of its changes, and what the verifier checks. Handles that the
caller passes may be of another context or erased; what a well-formed context refers to is alive, but
for what its instructions refer to.
-/
namespace ModuleIR

namespace Context

open Checked (Consistent consistent_ok)

variable {ctx : Context} (wf : ctx.WellFormed)

theorem admits_of_value {v : ValueRef} (h : ∃ r, ctx.value v = .ok r) :
    ctx.Admits (.value .any v) := by
  obtain ⟨r, read⟩ := h
  exact fun _ => (holds_value read rfl).2

theorem admits_of_function {f : FunctionRef} (h : ∃ fr, ctx.function f = .ok fr) :
    ctx.Admits (.value .function f.value) := by
  obtain ⟨fr, known⟩ := h
  exact fun _ => (holds_function known rfl).2

theorem admits_of_module {m : ModuleRef} (h : ∃ mr, ctx.module m = .ok mr) :
    ctx.Admits (.module m) := by
  obtain ⟨mr, live⟩ := h
  exact fun _ => (holds_module live).2

theorem Admits.any {view : ValueView} {v : ValueRef} (h : ctx.Admits (.value view v)) :
    ctx.Admits (.value .any v) := by
  intro owner
  obtain ⟨r, stored, _⟩ := h owner
  exact ⟨r, stored, .inl rfl⟩

/-! ### The scope of operands -/

section
include wf

theorem consistent_anchor {view : ValueView} {v : ValueRef} (h : ctx.Admits (.value view v)) :
    Consistent (ctx.anchor v) :=
  (consistent_value h).reads fun _ read =>
    (wf.anchored read).imp fun _ home => wf.anchor_eq_ok.mpr home

theorem consistent_scopeFault {view : ValueView} {v : ValueRef} {m : ModuleRef}
    {user : Option FunctionRef} {strict : Bool} (operand : ctx.Admits (.value view v))
    (home : ctx.Admits (.module m)) (inside : ∀ f ∈ user, ctx.Admits (.value .function f.value)) :
    Consistent (ctx.scopeFault v m user strict) := by
  refine (consistent_anchor wf operand).bind fun anchor found => ?_
  have anchored := anchored_of_anchor found
  have labelled := operandLabel_reads anchored.live
  cases anchor with
  | free => exact consistent_ok
  | module owner =>
    dsimp only
    split
    · exact consistent_ok
    · exact (Consistent.of_ok labelled).bind fun _ _ =>
        (Consistent.of_ok (moduleName_reads (wf.module_of_anchored anchored))).bind fun _ _ =>
          (consistent_moduleName home).bind fun _ _ => consistent_ok
  | function owner =>
    have named := Consistent.of_ok (functionName_reads (wf.function_of_anchored anchored))
    cases user with
    | none => exact (Consistent.of_ok labelled).bind fun _ _ => named.bind fun _ _ => consistent_ok
    | some user =>
      dsimp only
      split
      · exact consistent_ok
      · exact (Consistent.of_ok labelled).bind fun _ _ => named.bind fun _ _ =>
          (consistent_functionName (inside user rfl)).bind fun _ _ => consistent_ok
  | detached =>
    dsimp only
    split
    · exact (Consistent.of_ok labelled).bind fun _ _ => consistent_ok
    · exact consistent_ok

theorem consistent_firstScopeFault {us : List ValueRef} {m : ModuleRef} {user : Option FunctionRef}
    {strict : Bool} (operands : ∀ u ∈ us, ctx.Admits (.value .any u))
    (home : ctx.Admits (.module m)) (inside : ∀ f ∈ user, ctx.Admits (.value .function f.value)) :
    Consistent (ctx.firstScopeFault m user strict us) := by
  induction us with
  | nil => exact consistent_ok
  | cons u rest ih =>
    rw [List.forall_mem_cons] at operands
    refine (consistent_scopeFault wf operands.1 home inside).bind fun fault _ => ?_
    cases fault with
    | some fault => exact consistent_ok
    | none => exact ih operands.2

theorem operands_admitted {i : InstructionRef} {r : InstructionRecord}
    (made : ctx.instruction i = .ok r) : ∀ u ∈ r.operation.operands, ctx.Admits (.value .any u) :=
  fun _ mem => (wf.instructionSound made).references _
    (List.mem_append_left _ (List.mem_map_of_mem mem))

theorem successors_admitted {i : InstructionRef} {r : InstructionRecord}
    (made : ctx.instruction i = .ok r) : ∀ b ∈ r.operation.successors, ctx.Admits (.block b) :=
  fun _ mem => (wf.instructionSound made).references _
    (List.mem_append_right _ (List.mem_map_of_mem mem))

theorem module_of_function {f : FunctionRef} {fr : FunctionRecord}
    (known : ctx.function f = .ok fr) : ctx.Admits (.module fr.module) := by
  obtain ⟨mr, live, _⟩ := wf.function_listed known
  exact admits_of_module ⟨mr, live⟩

/-! ### Blocks -/

theorem consistent_terminator? {b : BlockRef} (h : ctx.Admits (.block b)) :
    Consistent (ctx.terminator? b) :=
  (consistent_block h).reads fun _ read => terminator?_reads wf read

omit wf in
theorem consistent_operandsOf {is : List InstructionRef}
    (made : ∀ i ∈ is, ∃ r, ctx.instruction i = .ok r) : Consistent (ctx.operandsOf is) := by
  induction is with
  | nil => exact consistent_ok
  | cons i rest ih =>
    rw [List.forall_mem_cons] at made
    obtain ⟨⟨r, known⟩, others⟩ := made
    exact (Consistent.of_ok ⟨_, operation_eq_ok.mpr ⟨r, known, rfl⟩⟩).bind fun _ _ =>
      (ih others).bind fun _ _ => consistent_ok

theorem operandsOf_admitted {is : List InstructionRef} {us : List ValueRef}
    (h : ctx.operandsOf is = .ok us) : ∀ u ∈ us, ctx.Admits (.value .any u) := by
  induction is generalizing us with
  | nil =>
    obtain rfl := Except.ok.inj h
    simp
  | cons i rest ih =>
    obtain ⟨o, read, h⟩ := Checked.bind_eq_ok.mp h
    obtain ⟨others, found, h⟩ := Checked.bind_eq_ok.mp h
    obtain rfl := Except.ok.inj h
    obtain ⟨r, made, rfl⟩ := operation_eq_ok.mp read
    exact List.forall_mem_append.mpr ⟨operands_admitted wf made, ih found⟩

theorem consistent_checkInsertion {b : BlockRef} {f : FunctionRef} (block : ctx.Admits (.block b))
    (function : ctx.Admits (.value .function f.value)) : Consistent (ctx.checkInsertion b f) := by
  refine (consistent_block block).bind fun br read => ?_
  refine (consistent_operandsOf fun i mem => ?_).bind fun us found => ?_
  · obtain ⟨r, made, _⟩ := wf.block_instruction read mem
    exact ⟨r, made⟩
  · refine (consistent_function function).bind fun fr known => ?_
    refine (consistent_firstScopeFault wf (operandsOf_admitted wf found)
      (module_of_function wf known) (by simpa using function)).bind fun fault _ => ?_
    cases fault with
    | none => exact consistent_ok
    | some fault => exact (consistent_functionName function).bind fun _ _ => by simp

omit wf in
theorem consistent_blockPosition {f : FunctionRef} {before : Option BlockRef}
    (function : ctx.Admits (.value .function f.value)) :
    Consistent (ctx.blockPosition f before) := by
  refine (consistent_function function).bind fun fr _ => ?_
  cases before with
  | none => exact consistent_ok
  | some sibling =>
    dsimp only
    split
    · exact consistent_ok
    · exact (consistent_functionName function).bind fun _ _ => by simp

/-! ### Instructions -/

theorem consistent_checkOperandScope {b : BlockRef} {us : List ValueRef}
    (block : ctx.Admits (.block b)) (operands : ∀ u ∈ us, ctx.Admits (.value .any u)) :
    Consistent (ctx.checkOperandScope b us) := by
  refine (consistent_block block).bind fun br read => ?_
  cases parent : br.parent with
  | none => exact consistent_ok
  | some f =>
    obtain ⟨fr, known, _⟩ := wf.block_listed read parent
    refine (Consistent.of_ok ⟨fr, known⟩).bind fun fr' known' => ?_
    refine (consistent_firstScopeFault wf operands (module_of_function wf known')
      (by simpa using admits_of_function ⟨fr, known⟩)).bind fun fault _ => ?_
    cases fault <;> simp

theorem consistent_checkOpen {b : BlockRef} {operation : Operation}
    (block : ctx.Admits (.block b)) : Consistent (ctx.checkOpen b operation) := by
  refine (consistent_terminator? wf block).bind fun last found => ?_
  cases last with
  | none => exact consistent_ok
  | some last =>
    refine (consistent_block block).bind fun br read => ?_
    obtain ⟨br', read', found⟩ := Checked.bind_eq_ok.mp found
    obtain rfl := Checked.unique read read'
    have mem : last ∈ br.instructions := by
      split at found
      · cases found
      · rename_i i place
        obtain ⟨r, _, found⟩ := Checked.bind_eq_ok.mp found
        have same : i = last := by
          split at found
          · split at found
            · simpa using found
            · cases found
          · cases found
        exact same ▸ List.mem_of_getLast? place
    obtain ⟨ir, made, _⟩ := wf.block_instruction read mem
    exact (Consistent.of_ok ⟨_, operation_eq_ok.mpr ⟨ir, made, rfl⟩⟩).bind fun _ _ => by simp

theorem consistent_typed {α : Type} {view : ValueView} {v : ValueRef} {next : TypeRef → Checked α}
    (h : ctx.Admits (.value view v)) (each : ∀ t, ctx.HasType t → (next t).Consistent) :
    Consistent (ctx.valueType v >>= next) := by
  refine (consistent_valueType h).bind fun t held => each t ?_
  obtain ⟨r, read, rfl⟩ := valueType_eq_ok.mp held
  exact (wf.valueSound read).type

theorem consistent_described {α : Type} {t : TypeRef} {next : String → Checked α}
    (has : ctx.HasType t) (each : ∀ text, (next text).Consistent) :
    Consistent (ctx.describeType t >>= next) :=
  (Consistent.of_ok ⟨_, wf.describeType_eq has⟩).bind fun text _ => each text

theorem consistent_describeTypeOf {view : ValueView} {v : ValueRef}
    (h : ctx.Admits (.value view v)) : Consistent (ctx.describeTypeOf v) :=
  consistent_typed wf h fun _ has => .of_ok ⟨_, wf.describeType_eq has⟩

theorem consistent_checkArguments {position : Nat} {params : List TypeRef} {args : List ValueRef}
    (operands : ∀ u ∈ args, ctx.Admits (.value .any u)) (typed : ∀ p ∈ params, ctx.HasType p) :
    Consistent (ctx.checkArguments position params args) := by
  induction args generalizing position params with
  | nil => cases params <;> exact consistent_ok
  | cons arg rest ih =>
    rw [List.forall_mem_cons] at operands
    cases params with
    | nil =>
      refine consistent_typed wf operands.1 fun ty has => ?_
      refine (Consistent.of_ok has).bind fun shape _ => ?_
      split
      · exact consistent_described wf has fun _ => by simp
      · exact ih operands.2 typed
    | cons param params =>
      rw [List.forall_mem_cons] at typed
      refine consistent_typed wf operands.1 fun ty has => ?_
      split
      · exact consistent_described wf has fun _ => consistent_described wf typed.1 fun _ => by simp
      · exact ih operands.2 typed.2

theorem consistent_calleeSignature? {view : ValueView} {callee : ValueRef}
    (h : ctx.Admits (.value view callee)) : Consistent (ctx.calleeSignature? callee) := by
  refine consistent_typed wf h fun ty has => ?_
  refine (Consistent.of_ok has).bind fun shape shaped => ?_
  cases shape with
  | pointer pointee space =>
    have inner := wf.hasType_inner shaped (List.mem_singleton.mpr rfl)
    exact (Consistent.of_ok inner).bind fun _ _ => consistent_ok
  | _ => exact consistent_ok

theorem consistent_checkCall {callee : ValueRef} {args : List ValueRef}
    (operands : ∀ u ∈ callee :: args, ctx.Admits (.value .any u)) :
    Consistent (ctx.checkCall callee args) := by
  rw [List.forall_mem_cons] at operands
  refine (consistent_calleeSignature? wf operands.1).bind fun found called => ?_
  cases found with
  | none => exact (consistent_describeTypeOf wf operands.1).bind fun _ _ => by simp
  | some signature =>
    obtain ⟨result, params, variadic, signed⟩ := calleeSignature?_shape called
    refine (Consistent.of_ok ⟨_, signed⟩).bind fun parts again => ?_
    obtain rfl := Checked.unique signed again
    have shaped := signature_eq_ok.mp signed
    have checked : Consistent (do ctx.checkArguments 0 params args; return signature) :=
      (consistent_checkArguments wf operands.2 fun p mem =>
        wf.hasType_inner shaped (List.mem_cons_of_mem _ mem)).bind fun _ _ => consistent_ok
    have refused : Consistent (do
        throw (.argumentCount (← ctx.describeType signature.type) params.length args.length) :
          Checked FunctionTypeRef) :=
      consistent_described wf ⟨_, shaped⟩ fun _ => by simp
    dsimp only
    split <;> split
    · exact refused
    · exact checked
    · exact refused
    · exact checked

theorem consistent_checkDirectCallee {callee : ValueRef} {b : BlockRef}
    (operand : ctx.Admits (.value .any callee)) (block : ctx.Admits (.block b)) :
    Consistent (ctx.checkDirectCallee callee b) := by
  refine (consistent_value operand).bind fun r read => ?_
  refine (consistent_block block).bind fun br held => ?_
  dsimp only
  split
  · rename_i target caller kind parent
    have called : ctx.function ⟨callee⟩ = .ok target := function_eq_ok.mpr ⟨r, read, kind⟩
    obtain ⟨fr, known, _⟩ := wf.block_listed held parent
    refine (Consistent.of_ok ⟨fr, known⟩).bind fun fr' known' => ?_
    split
    · exact (consistent_moduleName (module_of_function wf known')).bind fun _ _ =>
        (Consistent.of_ok (functionName_reads ⟨target, called⟩)).bind fun _ _ =>
          (consistent_moduleName (module_of_function wf called)).bind fun _ _ => by simp
    · exact consistent_ok
  · exact consistent_ok

theorem consistent_checkReturn {value : Option ValueRef} {b : BlockRef}
    (operand : ∀ u ∈ value, ctx.Admits (.value .any u)) (block : ctx.Admits (.block b)) :
    Consistent (ctx.checkReturn value b) := by
  refine (consistent_block block).bind fun br held => ?_
  cases parent : br.parent with
  | none => exact consistent_ok
  | some f =>
    obtain ⟨fr, known, _⟩ := wf.block_listed held parent
    have named := Consistent.of_ok (functionName_reads ⟨fr, known⟩)
    refine (Consistent.of_ok ⟨fr, known⟩).bind fun fr' known' => ?_
    obtain ⟨result, params, variadic, shaped⟩ := (wf.functionSound known').signature
    refine (Consistent.of_ok ⟨_, signature_eq_ok.mpr shaped⟩).bind fun parts signed => ?_
    obtain ⟨expected, _, _⟩ := parts
    have typed := wf.hasType_inner (signature_eq_ok.mp signed) List.mem_cons_self
    cases value with
    | none =>
      refine (Consistent.of_ok typed).bind fun shape _ => ?_
      split
      · exact named.bind fun _ _ => consistent_described wf typed fun _ => by simp
      · exact consistent_ok
    | some v =>
      refine consistent_typed wf (operand v rfl) fun actual has => ?_
      split
      · exact consistent_described wf has fun _ =>
          named.bind fun _ _ => consistent_described wf typed fun _ => by simp
      · exact consistent_ok

theorem consistent_checkCondition {cond : ValueRef} (operand : ctx.Admits (.value .any cond)) :
    Consistent (ctx.checkCondition cond) := by
  refine consistent_typed wf operand fun ty has => ?_
  refine (Consistent.of_ok has).bind fun shape _ => ?_
  split
  · exact consistent_described wf has fun _ => by simp
  · exact consistent_ok

/-! ### Constants, globals and names -/

theorem consistent_pointerParts {base : ConstantRef}
    (operand : ctx.Admits (.value .constant base.value)) : Consistent (ctx.pointerParts base) := by
  refine consistent_typed wf operand fun ty has => ?_
  refine (Consistent.of_ok has).bind fun shape _ => ?_
  cases shape with
  | pointer => exact consistent_ok
  | _ => exact consistent_described wf has fun _ => by simp

theorem consistent_elementType {position : Nat} {current : TypeRef} {indices : List ConstantRef}
    (operands : ∀ i ∈ indices, ctx.Admits (.value .constant i.value)) (typed : ctx.HasType current) :
    Consistent (ctx.elementType position current indices) ∧
      ∀ target, ctx.elementType position current indices = .ok target → ctx.HasType target := by
  induction indices generalizing position current with
  | nil =>
    refine ⟨consistent_ok, fun target reached => ?_⟩
    obtain rfl := Except.ok.inj reached
    exact typed
  | cons index rest ih =>
    rw [List.forall_mem_cons] at operands
    cases read : ctx.value index.value with
    | error violation =>
      have known := consistent_value operands.1
      rw [read] at known
      simp only [elementType, read, Checked.error_bind, reduceCtorEq, false_implies, implies_true,
        and_true]
      exact Checked.consistent_error.mpr (Checked.consistent_error.mp known)
    | ok r =>
      simp only [elementType, read, Checked.ok_bind]
      cases kind : r.kind with
      | int n =>
        dsimp only
        split
        · exact ih operands.2 typed
        · have known := typed
          obtain ⟨shape, shaped⟩ := known
          rw [shaped, Checked.ok_bind]
          cases shape with
          | array element length =>
            exact ih operands.2 (wf.hasType_inner shaped (List.mem_singleton.mpr rfl))
          | _ => exact ⟨consistent_described wf typed fun _ => by simp, by simp⟩
      | _ => simp

theorem consistent_checkInitializer {m : ModuleRef} {type : TypeRef} {init : ConstantRef}
    {name : String} (operand : ctx.Admits (.value .constant init.value))
    (typed : ctx.Admits (.type .any type)) (home : ctx.Admits (.module m)) :
    Consistent (ctx.checkInitializer m type init name) := by
  refine consistent_typed wf operand fun actual has => ?_
  split
  · exact consistent_described wf has fun _ =>
      (consistent_describeType wf typed).bind fun _ _ => by simp
  · refine (consistent_scopeFault wf operand home (by simp)).bind fun fault _ => ?_
    cases fault <;> simp

omit wf in
theorem consistent_globalPosition {m : ModuleRef} {before : Option GlobalRef}
    (home : ctx.Admits (.module m)) : Consistent (ctx.globalPosition m before) := by
  refine (consistent_module home).bind fun mr _ => ?_
  cases before with
  | none => exact consistent_ok
  | some sibling =>
    dsimp only
    split <;> simp

theorem consistent_nameScope {view : ValueView} {v : ValueRef} (h : ctx.Admits (.value view v)) :
    Consistent (ctx.nameScope v) := by
  refine (consistent_value h).bind fun r read => ?_
  cases kind : r.kind with
  | instruction i =>
    obtain ⟨br, held, _⟩ := wf.instruction_listed (instruction_eq_ok.mpr ⟨r, read, kind⟩ :
      ctx.instruction ⟨v⟩ = .ok i)
    refine (Consistent.of_ok ⟨br, held⟩).bind fun br' _ => ?_
    cases br'.parent <;> exact consistent_ok
  | _ => simp

end

end Context
end ModuleIR
