import ModuleIR.Proofs.Verify.Verdicts
import ModuleIR.Proofs.World.Initializers

set_option autoImplicit false

/-!
# The verifier finds no fault with initializers

Both steps that set an initializer check its type and its home, through the bases of pointer
arithmetic. A home in a module never changes, and an erasure that takes the initializer of a global
takes the global. So the check of the verifier is passed whenever it is made: of a global, only the
linkage of a declaration is left to judge.
-/
namespace ModuleIR

/-- What is wrong with a global whose initializer is in order: a declaration that is not external. -/
def GlobalRecord.linkageDefect? (gr : GlobalRecord) : Option Defect :=
  if gr.initializer.isNone && !gr.linkage.validForDeclaration then
    some (.globalLinkage gr.linkage.keyword)
  else none

namespace Context

variable {ctx : Context} {m : ModuleRef} {f : FunctionRef} {label : String} {expected : TypeRef}
  {defect : Defect} {error : VerifyError} {fault : ScopeFault}

/-! ### Defects of functions -/

theorem operationDefect?_ne_initializer {o : Operation}
    (h : ctx.operationDefect? f expected label o = .ok (some defect)) :
    defect ≠ .initializer fault := by
  cases o with
  | call => cases h
  | ret value =>
    obtain ⟨fits, _, h⟩ := Checked.bind_eq_ok.mp h
    cases fits with
    | true => cases h
    | false =>
      obtain ⟨type, _, h⟩ := Checked.bind_eq_ok.mp h
      cases h
      simp
  | br target | condBr cond ifTrue ifFalse =>
    obtain ⟨inside, _, h⟩ := Checked.bind_eq_ok.mp h
    cases inside <;> cases h
    simp

theorem instructionDefect?_ne_initializer {is : List InstructionRef}
    (h : ctx.instructionDefect? m f expected label is = .ok (some defect)) :
    defect ≠ .initializer fault := by
  induction is with
  | nil => cases h
  | cons i rest ih =>
    obtain ⟨o, _, h⟩ := Checked.bind_eq_ok.mp h
    obtain ⟨found, _, h⟩ := Checked.bind_eq_ok.mp h
    cases found with
    | some other =>
      cases h
      simp
    | none =>
      obtain ⟨judged, judgement, h⟩ := Checked.bind_eq_ok.mp h
      cases judged with
      | none => exact ih h
      | some _ =>
        cases h
        exact operationDefect?_ne_initializer judgement

theorem blockDefect?_ne_initializer {b : BlockRef}
    (h : ctx.blockDefect? m f expected b = .ok (some defect)) : defect ≠ .initializer fault := by
  obtain ⟨br, _, h⟩ := Checked.bind_eq_ok.mp h
  by_cases empty : br.instructions.isEmpty = true
  · rw [if_pos empty] at h
    cases h
    simp
  · rw [if_neg empty] at h
    obtain ⟨last, _, h⟩ := Checked.bind_eq_ok.mp h
    cases last with
    | none =>
      cases h
      simp
    | some _ => exact instructionDefect?_ne_initializer h

theorem bodyDefect?_ne_initializer {bs : List BlockRef}
    (h : ctx.bodyDefect? m f expected bs = .ok (some defect)) : defect ≠ .initializer fault := by
  induction bs with
  | nil => cases h
  | cons b rest ih =>
    obtain ⟨judged, judgement, h⟩ := Checked.bind_eq_ok.mp h
    cases judged with
    | none => exact ih h
    | some _ =>
      cases h
      exact blockDefect?_ne_initializer judgement

theorem functionDefect?_ne_initializer (h : ctx.functionDefect? f = .ok (some defect)) :
    defect ≠ .initializer fault := by
  obtain ⟨fr, _, h⟩ := Checked.bind_eq_ok.mp h
  by_cases declared : fr.blocks.isEmpty = true
  · rw [if_pos declared] at h
    split at h <;> cases h
    simp
  · rw [if_neg declared] at h
    obtain ⟨signature, _, h⟩ := Checked.bind_eq_ok.mp h
    exact bodyDefect?_ne_initializer h

theorem verifyFunctions_ne_initializer {fs : List FunctionRef}
    (h : ctx.verifyFunctions fs = .ok (.error error)) : error.defect ≠ .initializer fault := by
  induction fs with
  | nil => cases h
  | cons f rest ih =>
    obtain ⟨verdict, judgement, h⟩ := Checked.bind_eq_ok.mp h
    cases verdict with
    | ok => exact ih h
    | error other =>
      cases h
      obtain ⟨found, defective, judgement⟩ := Checked.bind_eq_ok.mp judgement
      cases found with
      | none => cases judgement
      | some defect =>
        obtain ⟨name, _, judgement⟩ := Checked.bind_eq_ok.mp judgement
        cases judgement
        exact functionDefect?_ne_initializer defective

/-! ### Globals -/

section WellFormed

variable (wf : ctx.WellFormed)
include wf

theorem scopeFault_initializer {g : GlobalRef} {gr : GlobalRecord} {init : ConstantRef}
    (known : ctx.global g = .ok gr) (given : gr.initializer = some init) :
    ctx.scopeFault init.value gr.module none true = .ok none := by
  rcases ((wf.globalSound known).initializer init given).home with free | owned
  · exact scopeFault_eq_none.mpr ⟨_, wf.anchor_eq_ok.mpr free, trivial⟩
  · exact scopeFault_eq_none.mpr ⟨_, wf.anchor_eq_ok.mpr owned, rfl⟩

theorem globalDefect?_eq {g : GlobalRef} {gr : GlobalRecord} (known : ctx.global g = .ok gr) :
    ctx.globalDefect? gr.module g = .ok gr.linkageDefect? := by
  rw [globalDefect?, known, Checked.ok_bind, GlobalRecord.linkageDefect?]
  cases given : gr.initializer with
  | none => cases gr.linkage.validForDeclaration <;> rfl
  | some init =>
    simp only [scopeFault_initializer wf known given]
    rfl

theorem verifyGlobals_blames_linkage {gs : List GlobalRef}
    (listed : ∀ g ∈ gs, ∃ gr, ctx.global g = .ok gr ∧ gr.module = m) :
    ∃ verdict, ctx.verifyGlobals m gs = .ok verdict ∧ ∀ error, verdict = .error error →
      ∃ g ∈ gs, ∃ gr, ctx.global g = .ok gr ∧ gr.linkageDefect? = some error.defect := by
  induction gs with
  | nil => exact ⟨.ok (), rfl, nofun⟩
  | cons g rest ih =>
    obtain ⟨gr, known, rfl⟩ := listed g List.mem_cons_self
    obtain ⟨verdict, others, blamed⟩ := ih fun g mem => listed g (List.mem_cons_of_mem _ mem)
    have judged := globalDefect?_eq wf known
    cases found : gr.linkageDefect? with
    | none =>
      rw [found] at judged
      refine ⟨verdict, ?_, fun error failed => ?_⟩
      · rw [verifyGlobals, judged]
        exact others
      · obtain ⟨g', mem, rest⟩ := blamed error failed
        exact ⟨g', List.mem_cons_of_mem _ mem, rest⟩
    | some defect =>
      rw [found] at judged
      obtain ⟨r, read, _⟩ := global_eq_ok.mp known
      have named : ctx.valueName g.value = .ok r.name := valueName_eq_ok.mpr ⟨r, read, rfl⟩
      refine ⟨.error ⟨r.name.getD "", defect⟩, ?_, ?_⟩
      · rw [verifyGlobals, judged, Checked.ok_bind]
        simp only [named]
        rfl
      · intro error failed
        obtain rfl := Except.error.inj failed
        exact ⟨g, List.mem_cons_self, gr, known, found⟩

end WellFormed

theorem linkageDefect?_ne_initializer {gr : GlobalRecord}
    (found : gr.linkageDefect? = some defect) : defect ≠ .initializer fault := by
  unfold GlobalRecord.linkageDefect? at found
  split at found <;> cases found
  simp

/-- A live module is refused for the linkage of one of its globals, or else its functions decide. -/
theorem verifyModule_cases (wf : ctx.WellFormed) {mr : ModuleRecord} (live : ctx.module m = .ok mr) :
    (∃ error, ctx.verifyModule m = .ok (.error error) ∧
      ∃ g ∈ mr.globals, ∃ gr, ctx.global g = .ok gr ∧ gr.linkageDefect? = some error.defect) ∨
    ctx.verifyModule m = ctx.verifyFunctions mr.functions := by
  obtain ⟨verdict, judged, blamed⟩ :=
    verifyGlobals_blames_linkage wf fun g listed => wf.module_global live listed
  rw [verifyModule, live, Checked.ok_bind, judged]
  cases verdict with
  | error error => exact .inl ⟨error, rfl, blamed error rfl⟩
  | ok => exact .inr rfl

end Context

namespace World

open Context

variable {w : World} {ctx : Context}

/-- In every reachable world the initializer of a live global has the type of the global and is a live
constant that is free, or at home in the module of the global: a global or function of it, or a pointer
into one through any chain of bases. So the verifier judges a global by its linkage alone: a live module
is refused for the linkage of a global, or its functions decide, and no verdict is about an
initializer. -/
theorem initializers_never_fail_verification (reachable : w.Reachable) (mem : ctx ∈ w.contexts) :
    (∀ g gr init, ctx.global g = .ok gr → gr.initializer = some init →
      ctx.valueType init.value = .ok gr.valueType ∧
      (∃ r, ctx.value init.value = .ok r ∧ r.kind.isConstant = true) ∧
      (ctx.Anchored init.value .free ∨ ctx.Anchored init.value (.module gr.module))) ∧
    (∀ g gr, ctx.global g = .ok gr → ctx.globalDefect? gr.module g = .ok gr.linkageDefect?) ∧
    ∀ m mr, ctx.module m = .ok mr →
      ((∃ error, ctx.verifyModule m = .ok (.error error) ∧
          ∃ g ∈ mr.globals, ∃ gr, ctx.global g = .ok gr ∧ gr.linkageDefect? = some error.defect) ∨
        ctx.verifyModule m = ctx.verifyFunctions mr.functions) ∧
      ∀ error fault, ctx.verifyModule m = .ok (.error error) → error.defect ≠ .initializer fault := by
  have wf := reachable.sound.wellFormed ctx mem
  refine ⟨fun g gr init known given => ?_, fun g gr known => globalDefect?_eq wf known,
    fun m mr live => ?_⟩
  · have sound := (wf.globalSound known).initializer init given
    exact ⟨reachable.initializersTyped ctx mem g gr init known given, sound.constant, sound.home⟩
  · have cases := verifyModule_cases wf live
    refine ⟨cases, fun error fault failed => ?_⟩
    rcases cases with ⟨other, refused, g, _, gr, _, found⟩ | decided
    · obtain rfl := Except.error.inj (Except.ok.inj (refused.symm.trans failed))
      exact linkageDefect?_ne_initializer found
    · exact verifyFunctions_ne_initializer (decided.symm.trans failed)

/-- The second global of the first module is initialized by a pointer into the first global through two
bases, in place of one through one base, and the other module is erased. -/
def replacedInitializer : World := after [.context, .request 0 (.integerType 8),
  .upcast (.type .any ⟨⟨1⟩, 0⟩), .request 0 (.pointerType ⟨⟨1⟩, 0⟩ .generic),
  .upcast (.type .any ⟨⟨1⟩, 1⟩), .request 0 (.createModule "kept"), .request 0 (.createModule "gone"),
  .request 0 (.createGlobal ⟨⟨1⟩, 0⟩ { type := ⟨⟨1⟩, 0⟩ }),
  .request 0 (.createGlobal ⟨⟨1⟩, 1⟩ { type := ⟨⟨1⟩, 0⟩ }),
  .request 0 (.constantInt (.ofUInt64 8 0) (.unsigned rfl 0)), .upcast (.value .constant ⟨⟨1⟩, 0⟩),
  .upcast (.value .constant ⟨⟨1⟩, 1⟩), .upcast (.value .constant ⟨⟨1⟩, 2⟩),
  .request 0 (.elementPtr ⟨⟨⟨1⟩, 0⟩⟩ [⟨⟨⟨1⟩, 2⟩⟩] false),
  .request 0 (.elementPtr ⟨⟨⟨1⟩, 3⟩⟩ [⟨⟨⟨1⟩, 2⟩⟩] false),
  .request 0 (.createGlobal ⟨⟨1⟩, 0⟩
    { type := ⟨⟨1⟩, 1⟩, linkage := .internal, initializer := some ⟨⟨⟨1⟩, 3⟩⟩ }),
  .request 0 (.setInitializer ⟨⟨⟨1⟩, 5⟩⟩ (some ⟨⟨⟨1⟩, 4⟩⟩)), .request 0 (.eraseModule ⟨⟨1⟩, 1⟩)]

theorem replacedInitializer_verified : replacedInitializer.Reachable ∧
    ∃ ctx ∈ replacedInitializer.contexts, ∃ gr, ctx.global ⟨⟨⟨1⟩, 5⟩⟩ = .ok gr ∧
      gr.initializer = some ⟨⟨⟨1⟩, 4⟩⟩ ∧ ctx.valueType ⟨⟨1⟩, 4⟩ = .ok gr.valueType ∧
      ctx.Anchored ⟨⟨1⟩, 4⟩ (.module ⟨⟨1⟩, 0⟩) ∧
      ctx.globalDefect? gr.module ⟨⟨⟨1⟩, 5⟩⟩ = .ok none ∧
      ∀ error fault, ctx.verifyModule ⟨⟨1⟩, 0⟩ = .ok (.error error) →
        error.defect ≠ .initializer fault := by
  have reachable : replacedInitializer.Reachable := reachable_after (by decide +kernel)
  have computed : (replacedInitializer.contexts[0]?).any (fun ctx : Context =>
      (ctx.global ⟨⟨⟨1⟩, 5⟩⟩).toOption.any (fun gr =>
        gr.initializer = some ⟨⟨⟨1⟩, 4⟩⟩ ∧ gr.module = ⟨⟨1⟩, 0⟩ ∧ gr.linkageDefect? = none) ∧
      ctx.anchor ⟨⟨1⟩, 4⟩ = .ok (.module ⟨⟨1⟩, 0⟩) ∧ (ctx.module ⟨⟨1⟩, 0⟩).toBool) = true := by
    decide +kernel
  obtain ⟨ctx, found, computed⟩ := (Option.any_eq_true _ _).mp computed
  obtain ⟨stored, anchored, live⟩ := of_decide_eq_true computed
  obtain ⟨gr, known, given⟩ := (Option.any_eq_true _ _).mp stored
  obtain ⟨given, module, clean⟩ := of_decide_eq_true given
  replace known := Checked.toOption_eq_some.mp known
  cases read : ctx.module ⟨⟨1⟩, 0⟩ with
  | error violation =>
    rw [read] at live
    cases live
  | ok mr =>
    have mem : ctx ∈ replacedInitializer.contexts := List.mem_of_getElem? found
    obtain ⟨sound, judged, verdicts⟩ := initializers_never_fail_verification reachable mem
    have defect := judged _ gr known
    rw [clean] at defect
    exact ⟨reachable, ctx, mem, gr, known, given, (sound _ gr _ known given).1,
      anchored_of_anchor anchored, defect, (verdicts _ mr read).2⟩

end World
end ModuleIR
