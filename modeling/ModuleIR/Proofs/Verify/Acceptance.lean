import ModuleIR.Proofs.Arena.References
import ModuleIR.Verify.Defects

set_option autoImplicit false

/-!
# What the verifier accepts

The search for a defect finds none exactly when every operand is at home in the function, in its
module or nowhere, every target is a block of the function, what is returned fits, every block ends
in a terminator, and declarations and initializers are as they should be. The properties here say so
without the order of the search.
-/
namespace ModuleIR

namespace Context

/-- An operation whose references the verifier accepts in a function. -/
structure OperationAccepted (ctx : Context) (m : ModuleRef) (f : FunctionRef) (expected : TypeRef)
    (o : Operation) : Prop where
  operands : ∀ u ∈ o.operands, ∃ anchor, ctx.Anchored u anchor ∧ anchor.Within m (some f) true
  targets : ∀ b ∈ o.successors, ∃ br, ctx.block b = .ok br ∧ br.parent = some f
  returned : ∀ value, o = .ret value → ctx.returnFits expected value = .ok true

structure BlockAccepted (ctx : Context) (m : ModuleRef) (f : FunctionRef) (expected : TypeRef)
    (br : BlockRecord) : Prop where
  nonempty : br.instructions ≠ []
  terminated : ∀ i ∈ br.instructions.getLast?, ∃ r, ctx.instruction i = .ok r ∧
    r.operation.isTerminator = true
  instructions : ∀ i ∈ br.instructions, ∃ r, ctx.instruction i = .ok r ∧
    ctx.OperationAccepted m f expected r.operation

/-- A declaration of valid linkage, or a definition with accepted blocks. -/
structure FunctionAccepted (ctx : Context) (f : FunctionRef) (fr : FunctionRecord) : Prop where
  declared : fr.blocks = [] → fr.linkage.validForDeclaration = true
  defined : fr.blocks ≠ [] → ∃ result params variadic,
    ctx.shape fr.signature.type = .ok (.function result params variadic) ∧
      ∀ b ∈ fr.blocks, ∃ br, ctx.block b = .ok br ∧ ctx.BlockAccepted fr.module f result br

structure GlobalAccepted (ctx : Context) (m : ModuleRef) (gr : GlobalRecord) : Prop where
  declared : gr.initializer = none → gr.linkage.validForDeclaration = true
  initialized : ∀ init ∈ gr.initializer, ∃ anchor, ctx.Anchored init.value anchor ∧
    anchor.Within m none true

structure ModuleAccepted (ctx : Context) (m : ModuleRef) (mr : ModuleRecord) : Prop where
  globals : ∀ g ∈ mr.globals, ∃ gr, ctx.global g = .ok gr ∧ ctx.GlobalAccepted m gr
  functions : ∀ f ∈ mr.functions, ∃ fr, ctx.function f = .ok fr ∧ ctx.FunctionAccepted f fr

variable {ctx : Context} {m : ModuleRef} {f : FunctionRef} {expected : TypeRef}

theorem allInside_eq_true {bs : List BlockRef} : ctx.allInside f bs = .ok true ↔
    ∀ b ∈ bs, ∃ br, ctx.block b = .ok br ∧ br.parent = some f := by
  induction bs with
  | nil => simp [allInside]
  | cons b rest ih =>
    rw [List.forall_mem_cons, ← ih, allInside, Checked.bind_eq_ok]
    constructor
    · rintro ⟨br, read, inside⟩
      split at inside
      · rename_i home
        exact ⟨⟨br, read, home⟩, inside⟩
      · cases inside
    · rintro ⟨⟨br, read, home⟩, others⟩
      exact ⟨br, read, by rw [if_pos home, others]⟩

theorem operationDefect?_eq_none {label : String} {o : Operation} :
    ctx.operationDefect? f expected label o = .ok none ↔
      (∀ b ∈ o.successors, ∃ br, ctx.block b = .ok br ∧ br.parent = some f) ∧
        ∀ value, o = .ret value → ctx.returnFits expected value = .ok true := by
  rw [← allInside_eq_true]
  have targets (inside : Bool) :
      (if inside = true then (pure none : Checked (Option Defect))
        else pure (some (.branchLeaves label))) = .ok none ↔ inside = true := by
    cases inside <;> simp
  cases o with
  | call => simp [operationDefect?, Operation.successors, allInside]
  | ret value =>
    simp only [operationDefect?, Operation.successors, allInside, Checked.pure_eq, true_and,
      Operation.ret.injEq, forall_eq', Checked.bind_eq_ok]
    constructor
    · rintro ⟨fits, judged, none⟩
      cases fits with
      | true => exact judged
      | false =>
        obtain ⟨_, _, impossible⟩ := Checked.bind_eq_ok.mp none
        cases impossible
    · exact fun judged => ⟨true, judged, rfl⟩
  | br | condBr =>
    simp only [operationDefect?, Checked.bind_eq_ok, targets, reduceCtorEq, false_imp_iff,
      implies_true, and_true, exists_eq_right]

theorem instructionDefect?_eq_none (wf : ctx.WellFormed) {label : String}
    {is : List InstructionRef} :
    ctx.instructionDefect? m f expected label is = .ok none ↔ ∀ i ∈ is, ∃ r,
      ctx.instruction i = .ok r ∧ ctx.OperationAccepted m f expected r.operation := by
  induction is with
  | nil => simp [instructionDefect?]
  | cons i rest ih =>
    have usable {us : List ValueRef} : ctx.firstScopeFault m (some f) true us = .ok none ↔
        ∀ u ∈ us, ∃ anchor, ctx.Anchored u anchor ∧ anchor.Within m (some f) true := by
      simp only [firstScopeFault_eq_none, scopeFault_eq_none, wf.anchor_eq_ok]
    rw [List.forall_mem_cons, ← ih, instructionDefect?, Checked.bind_eq_ok]
    simp only [operation_eq_ok]
    constructor
    · rintro ⟨_, ⟨r, made, rfl⟩, checked⟩
      obtain ⟨fault, found, checked⟩ := Checked.bind_eq_ok.mp checked
      cases fault with
      | some fault => cases checked
      | none =>
        obtain ⟨defect, judged, checked⟩ := Checked.bind_eq_ok.mp checked
        cases defect with
        | some defect => cases checked
        | none =>
          obtain ⟨targets, returned⟩ := operationDefect?_eq_none.mp judged
          exact ⟨⟨r, made, usable.mp found, targets, returned⟩, checked⟩
    · rintro ⟨⟨r, made, accepted⟩, others⟩
      have judged : ctx.operationDefect? f expected label r.operation = .ok none :=
        operationDefect?_eq_none.mpr ⟨accepted.targets, accepted.returned⟩
      refine ⟨r.operation, ⟨r, made, rfl⟩, ?_⟩
      simp only [usable.mpr accepted.operands, judged, Checked.ok_bind, others]

theorem terminator?_eq_some {b : BlockRef} {br : BlockRecord} (read : ctx.block b = .ok br)
    {last : InstructionRef} : ctx.terminator? b = .ok (some last) ↔
      br.instructions.getLast? = some last ∧
        ∃ r, ctx.instruction last = .ok r ∧ r.operation.isTerminator = true := by
  simp only [terminator?, read, Checked.ok_bind]
  cases found : br.instructions.getLast? with
  | none => simp
  | some i =>
    simp only [Checked.bind_eq_ok, instruction_eq_ok, Option.some.injEq]
    constructor
    · rintro ⟨value, held, ends⟩
      cases kind : value.kind with
      | instruction r =>
        rw [kind] at ends
        dsimp only at ends
        split at ends
        · rename_i terminates
          obtain rfl : i = last := by simpa using ends
          exact ⟨rfl, r, ⟨value, held, kind⟩, terminates⟩
        · cases ends
      | _ => simp [kind] at ends
    · rintro ⟨rfl, r, ⟨value, held, kind⟩, terminates⟩
      exact ⟨value, held, by simp [kind, terminates]⟩

theorem blockDefect?_eq_none (wf : ctx.WellFormed) {b : BlockRef} :
    ctx.blockDefect? m f expected b = .ok none ↔
      ∃ br, ctx.block b = .ok br ∧ ctx.BlockAccepted m f expected br := by
  rw [blockDefect?, Checked.bind_eq_ok]
  refine exists_congr fun br => and_congr_right fun read => ?_
  by_cases empty : br.instructions = []
  · simp only [empty, List.isEmpty_nil, ite_true, Checked.pure_eq, Except.ok.injEq, reduceCtorEq,
      false_iff]
    exact fun accepted => accepted.nonempty empty
  · have some : br.instructions.isEmpty = false := by simpa using empty
    simp only [some, Bool.false_eq_true, ite_false, Checked.bind_eq_ok]
    constructor
    · rintro ⟨last, terminated, checked⟩
      cases last with
      | none => cases checked
      | some last =>
        obtain ⟨found, ends⟩ := (terminator?_eq_some read).mp terminated
        refine ⟨empty, fun i mem => ?_, (instructionDefect?_eq_none wf).mp checked⟩
        obtain rfl := Option.some.inj (found.symm.trans mem)
        exact ends
    · intro accepted
      have found := List.getLast?_eq_some_getLast empty
      refine ⟨.some _, (terminator?_eq_some read).mpr ⟨found, accepted.terminated _ found⟩, ?_⟩
      exact (instructionDefect?_eq_none wf).mpr accepted.instructions

theorem bodyDefect?_eq_none (wf : ctx.WellFormed) {bs : List BlockRef} :
    ctx.bodyDefect? m f expected bs = .ok none ↔
      ∀ b ∈ bs, ∃ br, ctx.block b = .ok br ∧ ctx.BlockAccepted m f expected br := by
  induction bs with
  | nil => simp [bodyDefect?]
  | cons b rest ih =>
    rw [List.forall_mem_cons, ← ih, ← blockDefect?_eq_none wf, bodyDefect?, Checked.bind_eq_ok]
    constructor
    · rintro ⟨defect, judged, others⟩
      cases defect with
      | some defect => cases others
      | none => exact ⟨judged, others⟩
    · exact fun ⟨judged, others⟩ => ⟨none, judged, others⟩

theorem verifyFunction_eq_ok (wf : ctx.WellFormed) : ctx.verifyFunction f = .ok (.ok ()) ↔
    ∃ fr, ctx.function f = .ok fr ∧ ctx.FunctionAccepted f fr := by
  have faultless : ctx.verifyFunction f = .ok (.ok ()) ↔ ctx.functionDefect? f = .ok none := by
    rw [verifyFunction, Checked.bind_eq_ok]
    constructor
    · rintro ⟨defect, judged, accepted⟩
      cases defect with
      | none => exact judged
      | some defect =>
        obtain ⟨_, _, impossible⟩ := Checked.bind_eq_ok.mp accepted
        cases impossible
    · exact fun judged => ⟨none, judged, rfl⟩
  rw [faultless, functionDefect?, Checked.bind_eq_ok]
  refine exists_congr fun fr => and_congr_right fun known => ?_
  by_cases declared : fr.blocks = []
  · simp only [declared, List.isEmpty_nil, ite_true]
    constructor
    · intro judged
      refine ⟨fun _ => ?_, fun defined => absurd declared defined⟩
      cases valid : fr.linkage.validForDeclaration with
      | true => rfl
      | false => simp [valid] at judged
    · exact fun accepted => by simp [accepted.declared declared]
  · have body : fr.blocks.isEmpty = false := by simpa using declared
    simp only [body, Bool.false_eq_true, ite_false, Checked.bind_eq_ok]
    constructor
    · rintro ⟨⟨result, params, variadic⟩, signed, checked⟩
      refine ⟨fun empty => absurd empty declared, fun _ => ?_⟩
      exact ⟨result, params, variadic, signature_eq_ok.mp signed,
        (bodyDefect?_eq_none wf).mp checked⟩
    · intro accepted
      obtain ⟨result, params, variadic, shaped, blocks⟩ := accepted.defined declared
      exact ⟨(result, params, variadic), signature_eq_ok.mpr shaped,
        (bodyDefect?_eq_none wf).mpr blocks⟩

theorem verifyFunctions_eq_ok (wf : ctx.WellFormed) {fs : List FunctionRef} :
    ctx.verifyFunctions fs = .ok (.ok ()) ↔
      ∀ f ∈ fs, ∃ fr, ctx.function f = .ok fr ∧ ctx.FunctionAccepted f fr := by
  induction fs with
  | nil => simp [verifyFunctions]
  | cons f rest ih =>
    rw [List.forall_mem_cons, ← ih, ← verifyFunction_eq_ok wf, verifyFunctions, Checked.bind_eq_ok]
    constructor
    · rintro ⟨verdict, judged, others⟩
      cases verdict with
      | error e => cases others
      | ok u => exact ⟨judged, others⟩
    · exact fun ⟨judged, others⟩ => ⟨.ok (), judged, others⟩

theorem globalDefect?_eq_none (wf : ctx.WellFormed) {g : GlobalRef} :
    ctx.globalDefect? m g = .ok none ↔ ∃ gr, ctx.global g = .ok gr ∧ ctx.GlobalAccepted m gr := by
  rw [globalDefect?, Checked.bind_eq_ok]
  refine exists_congr fun gr => and_congr_right fun known => ?_
  cases given : gr.initializer with
  | none =>
    constructor
    · intro judged
      refine ⟨fun _ => ?_, by simp [given]⟩
      cases valid : gr.linkage.validForDeclaration with
      | true => rfl
      | false => simp [valid] at judged
    · exact fun accepted => by simp [accepted.declared given]
  | some init =>
    simp only [Checked.bind_eq_ok, Checked.pure_eq, Except.ok.injEq, Option.map_eq_none_iff,
      exists_eq_right, scopeFault_eq_none, wf.anchor_eq_ok]
    constructor
    · intro home
      refine ⟨fun none => by simp [given] at none, fun given' same => ?_⟩
      obtain rfl := Option.some.inj (given.symm.trans same)
      exact home
    · exact fun accepted => accepted.initialized init given

theorem verifyGlobals_eq_ok (wf : ctx.WellFormed) {gs : List GlobalRef} :
    ctx.verifyGlobals m gs = .ok (.ok ()) ↔
      ∀ g ∈ gs, ∃ gr, ctx.global g = .ok gr ∧ ctx.GlobalAccepted m gr := by
  induction gs with
  | nil => simp [verifyGlobals]
  | cons g rest ih =>
    rw [List.forall_mem_cons, ← ih, ← globalDefect?_eq_none wf, verifyGlobals, Checked.bind_eq_ok]
    constructor
    · rintro ⟨defect, judged, others⟩
      cases defect with
      | some defect =>
        obtain ⟨_, _, impossible⟩ := Checked.bind_eq_ok.mp others
        cases impossible
      | none => exact ⟨judged, others⟩
    · exact fun ⟨judged, others⟩ => ⟨none, judged, others⟩

/-- The verifier accepts a module exactly when its globals and functions are as they should be. -/
theorem verifyModule_eq_ok (wf : ctx.WellFormed) : ctx.verifyModule m = .ok (.ok ()) ↔
    ∃ mr, ctx.module m = .ok mr ∧ ctx.ModuleAccepted m mr := by
  rw [verifyModule, Checked.bind_eq_ok]
  refine exists_congr fun mr => and_congr_right fun live => ?_
  rw [Checked.bind_eq_ok]
  constructor
  · rintro ⟨verdict, judged, checked⟩
    cases verdict with
    | error e => cases checked
    | ok u => exact ⟨(verifyGlobals_eq_ok wf).mp judged, (verifyFunctions_eq_ok wf).mp checked⟩
  · intro accepted
    exact ⟨.ok (), (verifyGlobals_eq_ok wf).mpr accepted.globals,
      (verifyFunctions_eq_ok wf).mpr accepted.functions⟩

end Context
end ModuleIR
