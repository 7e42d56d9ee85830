import ModuleIR.Proofs.Arena.References
import ModuleIR.Proofs.Listing.TypeTexts
import ModuleIR.Verify.Defects

set_option autoImplicit false

/-!
# When the verifier gives a verdict

The verifier looks up the operands and the targets of the placed instructions, and the homes of the
operands. In a well-formed context all of that is alive where nothing dangles, so that a live module
is accepted or has a defect.
-/
namespace ModuleIR

namespace Context

variable {ctx : Context} (wf : ctx.WellFormed) {m : ModuleRef} {f : FunctionRef}

theorem operandLabel_reads {v : ValueRef} (live : ∃ r, ctx.value v = .ok r) :
    ∃ label, ctx.operandLabel v = .ok label := by
  obtain ⟨r, read⟩ := live
  exact ⟨_, Checked.bind_eq_ok.mpr ⟨r.name, valueName_eq_ok.mpr ⟨r, read, rfl⟩, rfl⟩⟩

theorem functionName_reads (known : ∃ fr, ctx.function f = .ok fr) :
    ∃ name, ctx.functionName f = .ok name := by
  obtain ⟨fr, known⟩ := known
  obtain ⟨r, read, _⟩ := function_eq_ok.mp known
  exact ⟨_, functionName_eq_ok.mpr ⟨r, read, rfl⟩⟩

theorem moduleName_reads (live : ∃ mr, ctx.module m = .ok mr) :
    ∃ name, ctx.moduleName m = .ok name := by
  obtain ⟨mr, live⟩ := live
  exact ⟨_, moduleName_eq_ok.mpr ⟨mr, live, rfl⟩⟩

include wf in
theorem scopeFault_reads {v : ValueRef} {user : Option FunctionRef} {strict : Bool}
    (live : ∃ r, ctx.value v = .ok r) (home : ∃ mr, ctx.module m = .ok mr)
    (inside : ∀ f ∈ user, ∃ fr, ctx.function f = .ok fr) :
    ∃ fault, ctx.scopeFault v m user strict = .ok fault := by
  obtain ⟨label, labelled⟩ := operandLabel_reads live
  obtain ⟨r, read⟩ := live
  obtain ⟨anchor, anchored⟩ := wf.anchored read
  obtain ⟨userName, named⟩ := moduleName_reads home
  unfold scopeFault
  rw [wf.anchor_eq_ok.mpr anchored, Checked.ok_bind]
  cases anchor with
  | free => exact ⟨none, rfl⟩
  | module owner =>
    obtain ⟨ownerName, owned⟩ := moduleName_reads (wf.module_of_anchored anchored)
    by_cases same : owner = m
    · exact ⟨none, by simp [same]⟩
    · exact ⟨some (.otherModule label ownerName userName), by simp [same, labelled, owned, named]⟩
  | function owner =>
    obtain ⟨ownerName, owned⟩ := functionName_reads (wf.function_of_anchored anchored)
    cases user with
    | none => exact ⟨some (.outsideFunction label ownerName), by simp [labelled, owned]⟩
    | some f =>
      obtain ⟨name, named'⟩ := functionName_reads (inside f rfl)
      by_cases same : owner = f
      · exact ⟨none, by simp [same]⟩
      · exact ⟨some (.otherFunction label ownerName name), by simp [same, labelled, owned, named']⟩
  | detached =>
    cases strict with
    | false => exact ⟨none, rfl⟩
    | true => exact ⟨some (.detached label), by simp [labelled]⟩

include wf in
theorem firstScopeFault_reads {us : List ValueRef} {strict : Bool}
    (live : ∀ u ∈ us, ∃ r, ctx.value u = .ok r) (home : ∃ mr, ctx.module m = .ok mr)
    (inside : ∃ fr, ctx.function f = .ok fr) :
    ∃ fault, ctx.firstScopeFault m (some f) strict us = .ok fault := by
  induction us with
  | nil => exact ⟨none, rfl⟩
  | cons u rest ih =>
    obtain ⟨fault, first⟩ : ∃ fault, ctx.scopeFault u m (some f) strict = .ok fault := by
      refine scopeFault_reads wf (live u List.mem_cons_self) home fun g same => ?_
      obtain rfl := Option.some.inj same
      exact inside
    obtain ⟨others, found⟩ := ih fun v mem => live v (List.mem_cons_of_mem _ mem)
    cases fault with
    | none => exact ⟨others, by simp [firstScopeFault, first, found]⟩
    | some fault => exact ⟨some fault, by simp [firstScopeFault, first]⟩

theorem allInside_reads {bs : List BlockRef} (live : ∀ b ∈ bs, ∃ br, ctx.block b = .ok br) :
    ∃ inside, ctx.allInside f bs = .ok inside := by
  induction bs with
  | nil => exact ⟨true, rfl⟩
  | cons b rest ih =>
    obtain ⟨br, read⟩ := live b List.mem_cons_self
    obtain ⟨inside, others⟩ := ih fun c mem => live c (List.mem_cons_of_mem _ mem)
    by_cases home : br.parent = some f
    · exact ⟨inside, by simp [allInside, read, home, others]⟩
    · exact ⟨false, by simp [allInside, read, home]⟩

theorem returnFits_reads {expected : TypeRef} {value : Option ValueRef}
    (typed : ctx.HasType expected) (live : ∀ v ∈ value, ∃ r, ctx.value v = .ok r) :
    ∃ fits, ctx.returnFits expected value = .ok fits := by
  cases value with
  | none =>
    obtain ⟨shape, shaped⟩ := typed
    exact ⟨_, Checked.bind_eq_ok.mpr ⟨shape, shaped, rfl⟩⟩
  | some v =>
    obtain ⟨r, read⟩ := live v rfl
    exact ⟨_, Checked.bind_eq_ok.mpr ⟨r.type, valueType_eq_ok.mpr ⟨r, read, rfl⟩, rfl⟩⟩

include wf in
theorem operationDefect?_reads {expected : TypeRef} {label : String} {o : Operation}
    (typed : ctx.HasType expected) (live : ∀ h ∈ o.handles, ctx.Lives h) :
    ∃ defect, ctx.operationDefect? f expected label o = .ok defect := by
  have targets : ∀ b ∈ o.successors, ∃ br, ctx.block b = .ok br := fun b mem =>
    live (.block b) (List.mem_append_right _ (List.mem_map_of_mem mem))
  obtain ⟨inside, checked⟩ := allInside_reads (f := f) targets
  cases o with
  | call callee args convention => exact ⟨none, rfl⟩
  | ret value =>
    obtain ⟨fits, judged⟩ : ∃ fits, ctx.returnFits expected value = .ok fits :=
      returnFits_reads typed fun v mem =>
        live (.value .any v) (by simpa [Operation.handles, Operation.operands] using mem)
    cases fits <;> exact ⟨_, by simp [operationDefect?, judged, wf.describeType_eq typed]; rfl⟩
  | br target => cases inside <;> exact ⟨_, by simp [operationDefect?, checked]; rfl⟩
  | condBr cond ifTrue ifFalse =>
    cases inside <;> exact ⟨_, by simp [operationDefect?, checked]; rfl⟩

include wf in
theorem instructionDefect?_reads {expected : TypeRef} {label : String} {is : List InstructionRef}
    (home : ∃ mr, ctx.module m = .ok mr) (inside : ∃ fr, ctx.function f = .ok fr)
    (typed : ctx.HasType expected)
    (live : ∀ i ∈ is, ∃ r, ctx.instruction i = .ok r ∧ ∀ h ∈ r.operation.handles, ctx.Lives h) :
    ∃ defect, ctx.instructionDefect? m f expected label is = .ok defect := by
  induction is with
  | nil => exact ⟨none, rfl⟩
  | cons i rest ih =>
    obtain ⟨r, made, lives⟩ := live i List.mem_cons_self
    have known : ctx.operation i = .ok r.operation := operation_eq_ok.mpr ⟨r, made, rfl⟩
    obtain ⟨fault, found⟩ :
        ∃ fault, ctx.firstScopeFault m (some f) true r.operation.operands = .ok fault :=
      firstScopeFault_reads wf (fun u mem =>
        lives (.value .any u) (List.mem_append_left _ (List.mem_map_of_mem mem))) home inside
    obtain ⟨defect, judged⟩ :
        ∃ defect, ctx.operationDefect? f expected label r.operation = .ok defect :=
      operationDefect?_reads wf typed lives
    obtain ⟨others, checked⟩ := ih fun j mem => live j (List.mem_cons_of_mem _ mem)
    cases fault with
    | some fault => exact ⟨_, by simp [instructionDefect?, known, found]; rfl⟩
    | none =>
      cases defect with
      | some defect => exact ⟨_, by simp [instructionDefect?, known, found, judged]; rfl⟩
      | none => exact ⟨_, by simp [instructionDefect?, known, found, judged, checked]; rfl⟩

include wf in
theorem terminator?_reads {b : BlockRef} {br : BlockRecord} (read : ctx.block b = .ok br) :
    ∃ last, ctx.terminator? b = .ok last := by
  cases last : br.instructions.getLast? with
  | none => exact ⟨none, by simp [terminator?, read, last]⟩
  | some i =>
    obtain ⟨r, made, _⟩ := wf.block_instruction read (List.mem_of_getLast? last)
    obtain ⟨value, held, kind⟩ := instruction_eq_ok.mp made
    exact ⟨_, by simp [terminator?, read, last, held, kind]; rfl⟩

include wf in
theorem blockDefect?_reads {expected : TypeRef} {b : BlockRef} {br : BlockRecord}
    (home : ∃ mr, ctx.module m = .ok mr) (inside : ∃ fr, ctx.function f = .ok fr)
    (typed : ctx.HasType expected) (read : ctx.block b = .ok br)
    (live : ∀ i ∈ br.instructions, ∀ r, ctx.instruction i = .ok r →
      ∀ h ∈ r.operation.handles, ctx.Lives h) :
    ∃ defect, ctx.blockDefect? m f expected b = .ok defect := by
  obtain ⟨last, terminated⟩ := terminator?_reads wf read
  obtain ⟨defect, judged⟩ : ∃ defect, ctx.instructionDefect? m f expected
      (br.name.getD "<unnamed>") br.instructions = .ok defect := by
    refine instructionDefect?_reads wf home inside typed fun i mem => ?_
    obtain ⟨r, made, _⟩ := wf.block_instruction read mem
    exact ⟨r, made, live i mem r made⟩
  by_cases empty : br.instructions = []
  · exact ⟨_, by simp [blockDefect?, read, empty]; rfl⟩
  · cases last with
    | none => exact ⟨_, by simp [blockDefect?, read, empty, terminated]; rfl⟩
    | some i => exact ⟨_, by simp [blockDefect?, read, empty, terminated, judged]; rfl⟩

include wf in
theorem bodyDefect?_reads {expected : TypeRef} {bs : List BlockRef}
    (home : ∃ mr, ctx.module m = .ok mr) (inside : ∃ fr, ctx.function f = .ok fr)
    (typed : ctx.HasType expected)
    (live : ∀ b ∈ bs, ∃ br, ctx.block b = .ok br ∧ ∀ i ∈ br.instructions, ∀ r,
      ctx.instruction i = .ok r → ∀ h ∈ r.operation.handles, ctx.Lives h) :
    ∃ defect, ctx.bodyDefect? m f expected bs = .ok defect := by
  induction bs with
  | nil => exact ⟨none, rfl⟩
  | cons b rest ih =>
    obtain ⟨br, read, lives⟩ := live b List.mem_cons_self
    obtain ⟨defect, judged⟩ := blockDefect?_reads wf home inside typed read lives
    obtain ⟨others, checked⟩ := ih fun c mem => live c (List.mem_cons_of_mem _ mem)
    cases defect with
    | some defect => exact ⟨_, by simp [bodyDefect?, judged]; rfl⟩
    | none => exact ⟨_, by simp [bodyDefect?, judged, checked]; rfl⟩

include wf in
theorem verifyFunction_reads {fr : FunctionRecord} (known : ctx.function f = .ok fr)
    (live : ∀ i r, ctx.PlacedIn i r f → ∀ h ∈ r.operation.handles, ctx.Lives h) :
    ∃ verdict, ctx.verifyFunction f = .ok verdict := by
  obtain ⟨name, named⟩ := functionName_reads ⟨fr, known⟩
  obtain ⟨mr, home, _⟩ := wf.function_listed known
  obtain ⟨result, params, variadic, shaped⟩ := (wf.functionSound known).signature
  have signed : ctx.signature fr.signature = .ok (result, params, variadic) :=
    signature_eq_ok.mpr shaped
  obtain ⟨defect, judged⟩ : ∃ defect, ctx.functionDefect? f = .ok defect := by
    by_cases declared : fr.blocks = []
    · cases valid : fr.linkage.validForDeclaration <;>
        exact ⟨_, by simp [functionDefect?, known, declared, valid]; rfl⟩
    · obtain ⟨defect, judged⟩ :
          ∃ defect, ctx.bodyDefect? fr.module f result fr.blocks = .ok defect := by
        refine bodyDefect?_reads wf ⟨mr, home⟩ ⟨fr, known⟩
          (wf.hasType_inner shaped List.mem_cons_self) fun b mem => ?_
        obtain ⟨br, read, _⟩ := wf.function_block known mem
        refine ⟨br, read, fun i listed r made => live i r ?_⟩
        exact (wf.placedIn_iff known).mpr ⟨made, b, mem, br, read, listed⟩
      exact ⟨defect, by simp [functionDefect?, known, declared, signed, judged]⟩
  cases defect with
  | none => exact ⟨_, by simp [verifyFunction, judged]; rfl⟩
  | some defect => exact ⟨_, by simp [verifyFunction, judged, named]; rfl⟩

include wf in
theorem verifyFunctions_reads {fs : List FunctionRef}
    (live : ∀ f ∈ fs, (∃ fr, ctx.function f = .ok fr) ∧
      ∀ i r, ctx.PlacedIn i r f → ∀ h ∈ r.operation.handles, ctx.Lives h) :
    ∃ verdict, ctx.verifyFunctions fs = .ok verdict := by
  induction fs with
  | nil => exact ⟨.ok (), rfl⟩
  | cons f rest ih =>
    obtain ⟨⟨fr, known⟩, lives⟩ := live f List.mem_cons_self
    obtain ⟨verdict, judged⟩ := verifyFunction_reads wf known lives
    obtain ⟨others, checked⟩ := ih fun g mem => live g (List.mem_cons_of_mem _ mem)
    cases verdict with
    | error e => exact ⟨_, by simp [verifyFunctions, judged]; rfl⟩
    | ok u => exact ⟨_, by simp [verifyFunctions, judged, checked]; rfl⟩

include wf in
theorem verifyGlobals_reads {gs : List GlobalRef} (home : ∃ mr, ctx.module m = .ok mr)
    (live : ∀ g ∈ gs, ∃ gr, ctx.global g = .ok gr) :
    ∃ verdict, ctx.verifyGlobals m gs = .ok verdict := by
  induction gs with
  | nil => exact ⟨.ok (), rfl⟩
  | cons g rest ih =>
    obtain ⟨gr, known⟩ := live g List.mem_cons_self
    obtain ⟨value, held, _⟩ := global_eq_ok.mp known
    have named : ctx.valueName g.value = .ok value.name := valueName_eq_ok.mpr ⟨value, held, rfl⟩
    obtain ⟨others, checked⟩ := ih fun h mem => live h (List.mem_cons_of_mem _ mem)
    obtain ⟨defect, judged⟩ : ∃ defect, ctx.globalDefect? m g = .ok defect := by
      cases given : gr.initializer with
      | none =>
        cases valid : gr.linkage.validForDeclaration <;>
          exact ⟨_, by simp [globalDefect?, known, given, valid]; rfl⟩
      | some init =>
        obtain ⟨r, read, _⟩ := ((wf.globalSound known).initializer init given).constant
        obtain ⟨fault, found⟩ : ∃ fault, ctx.scopeFault init.value m none true = .ok fault :=
          scopeFault_reads wf ⟨r, read⟩ home (by simp)
        exact ⟨_, by simp [globalDefect?, known, given, found]; rfl⟩
    cases defect with
    | none => exact ⟨_, by simp [verifyGlobals, judged, checked]; rfl⟩
    | some defect => exact ⟨_, by simp [verifyGlobals, judged, named]; rfl⟩

include wf in
/-- A live module in which nothing dangles is accepted or has a defect. -/
theorem verifyModule_reads {mr : ModuleRecord} (live : ctx.module m = .ok mr)
    (sound : ¬ctx.Dangles m) : ∃ verdict, ctx.verifyModule m = .ok verdict := by
  obtain ⟨globals, judged⟩ : ∃ verdict, ctx.verifyGlobals m mr.globals = .ok verdict := by
    refine verifyGlobals_reads wf ⟨mr, live⟩ fun g mem => ?_
    obtain ⟨gr, known, _⟩ := wf.module_global live mem
    exact ⟨gr, known⟩
  obtain ⟨functions, checked⟩ : ∃ verdict, ctx.verifyFunctions mr.functions = .ok verdict := by
    refine verifyFunctions_reads wf fun f mem => ?_
    obtain ⟨fr, known, home⟩ := wf.module_function live mem
    exact ⟨⟨fr, known⟩, fun i r placed h inside =>
      not_dangles.mp sound h ⟨i, r, f, fr, placed, known, home, inside⟩⟩
  cases globals with
  | error e => exact ⟨_, by simp [verifyModule, live, judged]; rfl⟩
  | ok u => exact ⟨_, by simp [verifyModule, live, judged, checked]; rfl⟩

end Context
end ModuleIR
