import ModuleIR.Proofs.Interleaving.Texts
import ModuleIR.Verify.Defects

set_option autoImplicit false

/-!
# Verifying alike

The verifier reads a module and compares what it reads, so that it judges the counterpart of a module
as it judges the module: both are accepted, or both are refused for the same defect of the same
entity. Only the place in the arena, by which an operand without a name is told, is another.
-/
namespace ModuleIR

open List (Forall₂)

open Checked (Echoed)

def Defect.unnumbered : Defect → Defect
  | blockOperand block fault => blockOperand block fault.unnumbered
  | initializer fault => initializer fault.unnumbered
  | defect => defect

def VerifyError.unnumbered (e : VerifyError) : VerifyError := { e with defect := e.defect.unnumbered }

/-- The same defect but for the places of operands in the arena. -/
def Defect.Alike (defect defect' : Defect) : Prop := defect'.unnumbered = defect.unnumbered

/-- The same outcome, with the same error but for the places of operands in the arena. -/
inductive SameVerdict : Except VerifyError Unit → Except VerifyError Unit → Prop
  | accepted : SameVerdict (.ok ()) (.ok ())
  | refused {e e' : VerifyError} (alike : e'.unnumbered = e.unnumbered) :
      SameVerdict (.error e) (.error e')

namespace Pairing.Reflects

variable {ρ : Pairing} {c₁ c : Context} (tracks : ρ.Reflects c₁ c)
include tracks

theorem returnFits {t t' : TypeRef} {u u' : Option ValueRef} (expected : ρ.Types t t')
    (value : Option.Rel ρ.Values u u') :
    Echoed Eq (c₁.returnFits t u) (c.returnFits t' u') := by
  cases value with
  | none => exact (tracks.shape t t' expected).bind fun _ _ shapes => .pure shapes.isVoid.symm
  | some paired =>
    refine (tracks.valueType paired).bind fun _ _ types => .pure ?_
    simp only [eq_iff types_unique types expected]

theorem allInside {f f' : FunctionRef} {bs bs' : List BlockRef}
    (function : ρ.Through FunctionRef.value f f') (listed : Forall₂ ρ.Blocks bs bs') :
    Echoed Eq (c₁.allInside f bs) (c.allInside f' bs') := by
  induction listed with
  | nil => exact .pure rfl
  | cons paired _ ih =>
    refine (tracks.block _ _ paired).bind fun ⟨_, parent, _, _⟩ ⟨_, parent', _, _⟩ same => ?_
    have parents : Option.Rel (ρ.Through FunctionRef.value) parent parent' := same.parent
    cases parents with
    | none => exact .pure rfl
    | some owner =>
      refine .ite ?_ (fun _ => ih) fun _ => .pure rfl
      rw [Option.some.injEq, Option.some.injEq]
      exact eq_iff functionRefs_unique owner function

section Contexts

variable (wf : c.WellFormed)
include wf

theorem operationDefect? {f f' : FunctionRef} {t t' : TypeRef} {label : String} {o o' : Operation}
    (function : ρ.Through FunctionRef.value f f') (expected : ρ.Types t t')
    (operations : ρ.Operations o o') :
    Echoed (Option.Rel Defect.Alike) (c₁.operationDefect? f t label o)
      (c.operationDefect? f' t' label o') := by
  have leaves (listed : Forall₂ ρ.Blocks o.successors o'.successors) :
      Echoed (Option.Rel Defect.Alike)
        (do if ← c₁.allInside f o.successors then return none
            else return some (.branchLeaves label))
        (do if ← c.allInside f' o'.successors then return none
            else return some (.branchLeaves label)) := by
    refine (tracks.allInside function listed).bind fun inside _ same => ?_
    subst same
    cases inside with
    | true => exact .pure .none
    | false => exact .pure (.some rfl)
  cases operations with
  | call => exact .pure .none
  | ret value =>
    refine (tracks.returnFits expected value).bind fun fits _ same => ?_
    subst same
    cases fits with
    | true => exact .pure .none
    | false =>
      exact (tracks.describeType wf expected).bind fun _ _ texts =>
        .pure (.some (by rw [Defect.Alike, texts]))
  | br target => exact leaves (.cons target .nil)
  | condBr _ ifTrue ifFalse => exact leaves (.cons ifTrue (.cons ifFalse .nil))

theorem instructionDefect? {m m' : ModuleRef} {f f' : FunctionRef} {t t' : TypeRef} {label : String}
    {is is' : List InstructionRef} (modules : ρ.Modules m m')
    (function : ρ.Through FunctionRef.value f f') (expected : ρ.Types t t')
    (listed : Forall₂ (ρ.Through InstructionRef.value) is is') :
    Echoed (Option.Rel Defect.Alike) (c₁.instructionDefect? m f t label is)
      (c.instructionDefect? m' f' t' label is') := by
  induction listed with
  | nil => exact .pure .none
  | cons paired _ ih =>
    refine (tracks.operation paired).bind fun o o' operations => ?_
    refine (tracks.firstScopeFault wf.basesBefore modules (.some function)
      operations.operands).bind fun _ _ faults => ?_
    cases faults with
    | some alike => exact .pure (.some (congrArg (Defect.blockOperand label) alike))
    | none =>
      refine (tracks.operationDefect? wf function expected operations).bind
        fun _ _ defects => ?_
      cases defects with
      | some alike => exact .pure (.some alike)
      | none => exact ih

theorem blockDefect? {m m' : ModuleRef} {f f' : FunctionRef} {t t' : TypeRef} {b b' : BlockRef}
    (modules : ρ.Modules m m') (function : ρ.Through FunctionRef.value f f')
    (expected : ρ.Types t t') (paired : ρ.Blocks b b') :
    Echoed (Option.Rel Defect.Alike) (c₁.blockDefect? m f t b) (c.blockDefect? m' f' t' b') := by
  refine (tracks.block b b' paired).bind fun r r' same => ?_
  dsimp only
  rw [same.name, isEmpty_eq same.instructions]
  refine .ite .rfl (fun _ => .pure (.some rfl)) fun _ => ?_
  refine (tracks.terminator? paired).bind fun _ _ lasts => ?_
  cases lasts with
  | none => exact .pure (.some rfl)
  | some => exact tracks.instructionDefect? wf modules function expected same.instructions

theorem bodyDefect? {m m' : ModuleRef} {f f' : FunctionRef} {t t' : TypeRef} {bs bs' : List BlockRef}
    (modules : ρ.Modules m m') (function : ρ.Through FunctionRef.value f f')
    (expected : ρ.Types t t') (listed : Forall₂ ρ.Blocks bs bs') :
    Echoed (Option.Rel Defect.Alike) (c₁.bodyDefect? m f t bs) (c.bodyDefect? m' f' t' bs') := by
  induction listed with
  | nil => exact .pure .none
  | cons paired _ ih =>
    refine (tracks.blockDefect? wf modules function expected paired).bind fun _ _ defects => ?_
    cases defects with
    | some alike => exact .pure (.some alike)
    | none => exact ih

theorem functionDefect? {f f' : FunctionRef} (paired : ρ.Through FunctionRef.value f f') :
    Echoed (Option.Rel Defect.Alike) (c₁.functionDefect? f) (c.functionDefect? f') := by
  refine (tracks.function paired).bind fun r r' same => ?_
  rw [isEmpty_eq same.blocks, same.linkage]
  refine .ite .rfl (fun _ => ?_) fun _ => ?_
  · exact .ite .rfl (fun _ => .pure .none) fun _ => .pure (.some rfl)
  · refine (tracks.signature same.signature).bind fun ⟨_, _, _⟩ ⟨_, _, _⟩ ⟨result, _⟩ => ?_
    exact tracks.bodyDefect? wf same.module paired result same.blocks

theorem globalDefect? {m m' : ModuleRef} {g g' : GlobalRef} (modules : ρ.Modules m m')
    (paired : ρ.Through GlobalRef.value g g') :
    Echoed (Option.Rel Defect.Alike) (c₁.globalDefect? m g) (c.globalDefect? m' g') := by
  refine (tracks.global paired).bind fun r r' same => ?_
  have inits := same.initializer
  rw [same.linkage]
  generalize r.initializer = init, r'.initializer = init' at inits ⊢
  cases inits with
  | none => exact .ite .rfl (fun _ => .pure .none) fun _ => .pure (.some rfl)
  | some init =>
    refine (tracks.scopeFault wf.basesBefore init modules .none).bind fun _ _ faults => .pure ?_
    cases faults with
    | none => exact .none
    | some alike => exact .some (congrArg Defect.initializer alike)

theorem verifyFunction {f f' : FunctionRef} (paired : ρ.Through FunctionRef.value f f') :
    Echoed SameVerdict (c₁.verifyFunction f) (c.verifyFunction f') := by
  refine (tracks.functionDefect? wf paired).bind fun _ _ defects => ?_
  cases defects with
  | none => exact .pure .accepted
  | some alike =>
    refine (tracks.functionName paired).bind fun name _ same => ?_
    subst same
    exact .pure (.refused (congrArg (VerifyError.mk name) alike))

theorem verifyGlobals {m m' : ModuleRef} {gs gs' : List GlobalRef} (modules : ρ.Modules m m')
    (listed : Forall₂ (ρ.Through GlobalRef.value) gs gs') :
    Echoed SameVerdict (c₁.verifyGlobals m gs) (c.verifyGlobals m' gs') := by
  induction listed with
  | nil => exact .pure .accepted
  | cons paired _ ih =>
    refine (tracks.globalDefect? wf modules paired).bind fun _ _ defects => ?_
    cases defects with
    | none => exact ih
    | some alike =>
      refine (tracks.valueName paired).bind fun name _ same => ?_
      subst same
      exact .pure (.refused (congrArg (VerifyError.mk (name.getD "")) alike))

theorem verifyFunctions {fs fs' : List FunctionRef}
    (listed : Forall₂ (ρ.Through FunctionRef.value) fs fs') :
    Echoed SameVerdict (c₁.verifyFunctions fs) (c.verifyFunctions fs') := by
  induction listed with
  | nil => exact .pure .accepted
  | cons paired _ ih =>
    refine (tracks.verifyFunction wf paired).bind fun _ _ verdicts => ?_
    cases verdicts with
    | refused alike => exact .pure (.refused alike)
    | accepted => exact ih

/-- The counterpart of a module is judged as the module is. -/
theorem verifyModule {m m' : ModuleRef} (paired : ρ.Modules m m') :
    Echoed SameVerdict (c₁.verifyModule m) (c.verifyModule m') := by
  refine (tracks.module m m' paired).bind fun r r' same => ?_
  refine (tracks.verifyGlobals wf paired same.globals).bind fun _ _ verdicts => ?_
  cases verdicts with
  | refused alike => exact .pure (.refused alike)
  | accepted => exact tracks.verifyFunctions wf same.functions

end Contexts
end Pairing.Reflects
end ModuleIR
