import ModuleIR.Proofs.Consistency.Checks
import ModuleIR.Verify.Report

set_option autoImplicit false

/-!
# Judgements are consistent

The verifier reads what a module or function holds, and what its instructions refer to. The latter
may be of another context or erased; a handle that breaks its promise is not among it.
-/
namespace ModuleIR.Context

open Checked (Consistent consistent_ok)

variable {ctx : Context} (wf : ctx.WellFormed)
include wf

omit wf in
theorem consistent_allInside {f : FunctionRef} {bs : List BlockRef}
    (blocks : ∀ b ∈ bs, ctx.Admits (.block b)) : Consistent (ctx.allInside f bs) := by
  induction bs with
  | nil => exact consistent_ok
  | cons b rest ih =>
    rw [List.forall_mem_cons] at blocks
    refine (consistent_block blocks.1).bind fun br _ => ?_
    split
    · exact ih blocks.2
    · exact consistent_ok

theorem consistent_operationDefect? {f : FunctionRef} {expected : TypeRef} {label : String}
    {o : Operation} (typed : ctx.HasType expected)
    (operands : ∀ u ∈ o.operands, ctx.Admits (.value .any u))
    (successors : ∀ b ∈ o.successors, ctx.Admits (.block b)) :
    Consistent (ctx.operationDefect? f expected label o) := by
  have branches : Consistent (do
      if ← ctx.allInside f o.successors then return none
      else return some (.branchLeaves label) : Checked (Option Defect)) :=
    (consistent_allInside successors).bind fun _ _ => by split <;> exact consistent_ok
  cases o with
  | ret value =>
    have fits : Consistent (ctx.returnFits expected value) := by
      cases value with
      | none => exact (Consistent.of_ok typed).bind fun _ _ => consistent_ok
      | some v =>
        exact (consistent_valueType (operands v List.mem_cons_self)).bind fun _ _ => consistent_ok
    have described : Consistent (ctx.describeType expected) := .of_ok ⟨_, wf.describeType_eq typed⟩
    refine fits.bind fun _ _ => ?_
    split
    · exact consistent_ok
    · exact described.bind fun _ _ => consistent_ok
  | call => exact consistent_ok
  | br | condBr => exact branches

theorem consistent_instructionDefect? {m : ModuleRef} {f : FunctionRef} {expected : TypeRef}
    {label : String} {is : List InstructionRef} (home : ctx.Admits (.module m))
    (function : ctx.Admits (.value .function f.value)) (typed : ctx.HasType expected)
    (made : ∀ i ∈ is, ∃ r, ctx.instruction i = .ok r) :
    Consistent (ctx.instructionDefect? m f expected label is) := by
  induction is with
  | nil => exact consistent_ok
  | cons i rest ih =>
    rw [List.forall_mem_cons] at made
    obtain ⟨⟨r, known⟩, others⟩ := made
    have operands := operands_admitted wf known
    refine (Consistent.of_ok ⟨_, operation_eq_ok.mpr ⟨r, known, rfl⟩⟩).bind fun o read => ?_
    obtain rfl := Checked.unique read (operation_eq_ok.mpr ⟨r, known, rfl⟩)
    refine (consistent_firstScopeFault wf operands home (by simpa using function)).bind fun fault _ => ?_
    cases fault with
    | some fault => exact consistent_ok
    | none =>
      refine (consistent_operationDefect? wf typed operands (successors_admitted wf known)).bind
        fun defect _ => ?_
      cases defect with
      | some defect => exact consistent_ok
      | none => exact ih others

theorem consistent_blockDefect? {m : ModuleRef} {f : FunctionRef} {expected : TypeRef}
    {b : BlockRef} (home : ctx.Admits (.module m)) (function : ctx.Admits (.value .function f.value))
    (typed : ctx.HasType expected) (block : ctx.Admits (.block b)) :
    Consistent (ctx.blockDefect? m f expected b) := by
  refine (consistent_block block).bind fun br read => ?_
  dsimp only
  split
  · exact consistent_ok
  · refine (consistent_terminator? wf block).bind fun last _ => ?_
    cases last with
    | none => exact consistent_ok
    | some last =>
      refine consistent_instructionDefect? wf home function typed fun i mem => ?_
      obtain ⟨ir, made, _⟩ := wf.block_instruction read mem
      exact ⟨ir, made⟩

theorem consistent_bodyDefect? {m : ModuleRef} {f : FunctionRef} {expected : TypeRef}
    {bs : List BlockRef} (home : ctx.Admits (.module m))
    (function : ctx.Admits (.value .function f.value)) (typed : ctx.HasType expected)
    (blocks : ∀ b ∈ bs, ctx.Admits (.block b)) :
    Consistent (ctx.bodyDefect? m f expected bs) := by
  induction bs with
  | nil => exact consistent_ok
  | cons b rest ih =>
    rw [List.forall_mem_cons] at blocks
    refine (consistent_blockDefect? wf home function typed blocks.1).bind fun defect _ => ?_
    cases defect with
    | some defect => exact consistent_ok
    | none => exact ih blocks.2

theorem consistent_verifyFunction {f : FunctionRef}
    (h : ctx.Admits (.value .function f.value)) : Consistent (ctx.verifyFunction f) := by
  have judged : Consistent (ctx.functionDefect? f) := by
    refine (consistent_function h).bind fun fr known => ?_
    split
    · split <;> exact consistent_ok
    · obtain ⟨result, params, variadic, shaped⟩ := (wf.functionSound known).signature
      refine (Consistent.of_ok ⟨_, signature_eq_ok.mpr shaped⟩).bind fun parts signed => ?_
      refine consistent_bodyDefect? wf (module_of_function wf known) h
        (wf.hasType_inner (signature_eq_ok.mp signed) List.mem_cons_self) fun b mem => ?_
      obtain ⟨br, read, _⟩ := wf.function_block known mem
      exact fun _ => (holds_block read).2
  refine judged.bind fun defect _ => ?_
  cases defect with
  | none => exact consistent_ok
  | some defect => exact (consistent_functionName h).bind fun _ _ => consistent_ok

theorem consistent_verifyGlobals {m : ModuleRef} {gs : List GlobalRef}
    (home : ctx.Admits (.module m)) (live : ∀ g ∈ gs, ∃ gr, ctx.global g = .ok gr) :
    Consistent (ctx.verifyGlobals m gs) := by
  induction gs with
  | nil => exact consistent_ok
  | cons g rest ih =>
    rw [List.forall_mem_cons] at live
    obtain ⟨⟨gr, known⟩, others⟩ := live
    have judged : Consistent (ctx.globalDefect? m g) := by
      refine (Consistent.of_ok ⟨gr, known⟩).bind fun gr' known' => ?_
      cases given : gr'.initializer with
      | none =>
        dsimp only
        split <;> exact consistent_ok
      | some init =>
        obtain ⟨r, held, _⟩ := ((wf.globalSound known').initializer init given).constant
        exact (consistent_scopeFault wf (admits_of_value ⟨r, held⟩) home (by simp)).bind
          fun _ _ => consistent_ok
    refine judged.bind fun defect _ => ?_
    cases defect with
    | none => exact ih others
    | some defect =>
      obtain ⟨r, held, _⟩ := global_eq_ok.mp known
      exact (consistent_valueName (admits_of_value ⟨r, held⟩)).bind fun _ _ => consistent_ok

theorem consistent_verifyFunctions {fs : List FunctionRef}
    (live : ∀ f ∈ fs, ctx.Admits (.value .function f.value)) :
    Consistent (ctx.verifyFunctions fs) := by
  induction fs with
  | nil => exact consistent_ok
  | cons f rest ih =>
    rw [List.forall_mem_cons] at live
    refine (consistent_verifyFunction wf live.1).bind fun verdict _ => ?_
    cases verdict with
    | error e => exact consistent_ok
    | ok u => exact ih live.2

theorem consistent_verifyModule {m : ModuleRef} (h : ctx.Admits (.module m)) :
    Consistent (ctx.verifyModule m) := by
  refine (consistent_module h).bind fun mr live => ?_
  refine (consistent_verifyGlobals wf h fun g mem => ?_).bind fun verdict _ => ?_
  · obtain ⟨gr, known, _⟩ := wf.module_global live mem
    exact ⟨gr, known⟩
  · cases verdict with
    | error e => exact consistent_ok
    | ok u =>
      refine consistent_verifyFunctions wf fun f mem => ?_
      obtain ⟨fr, known, _⟩ := wf.module_function live mem
      exact admits_of_function ⟨fr, known⟩

end ModuleIR.Context
