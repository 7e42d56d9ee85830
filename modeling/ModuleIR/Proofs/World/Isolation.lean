import ModuleIR.Proofs.Listing.Agreement
import ModuleIR.Proofs.World.Dangling

set_option autoImplicit false

/-!
# Isolation of accepted modules

What the verifier accepts refers to nothing that goes with another module: operands are at home in
the function, in its module or nowhere, targets are blocks of the function. So all that the listing
and the verifier read of an accepted module survives the erasure of another, and reads as before.
-/
namespace ModuleIR

namespace Context

def Outlives (ctx : Context) (n : ModuleRef) (v : ValueRef) : Prop :=
  (∃ r, ctx.value v = .ok r) ∧ ¬ctx.BelongsTo n v

def BlockOutlives (ctx : Context) (n : ModuleRef) (b : BlockRef) : Prop :=
  (∃ br, ctx.block b = .ok br) ∧ ¬ctx.BlockBelongsTo n b

variable {ctx ctx' : Context} {m n : ModuleRef} {f : FunctionRef}

/-- The survivors of an erasure read as before. -/
theorem Erases.agreesOn (e : ctx.Erases n ctx') (wf : ctx.WellFormed) :
    ctx.AgreesOn ctx' (ctx.Outlives n) (ctx.BlockOutlives n) where
  id := e.id
  types := e.entombs.types
  values := by
    rintro v ⟨⟨r, read⟩, stays⟩
    rw [read, e.value]
    exact ⟨read, stays⟩
  blocks := by
    rintro b ⟨⟨br, read⟩, stays⟩
    rw [read, e.block]
    exact ⟨read, stays⟩
  operands := by
    rintro v r p ⟨_, stays⟩ read kind
    have sound := wf.elementPtrSound read kind
    obtain ⟨base, held, _⟩ := sound.base
    refine ⟨⟨⟨base, held⟩, mt (belongsTo_elementPtr read kind).mpr stays⟩, fun u mem => ?_⟩
    obtain ⟨index, _, held', content⟩ := sound.indices u mem
    exact ⟨⟨index, held'⟩, not_belongsTo_free (.int held' content)⟩

theorem Outlives.of_within {fr : FunctionRecord} {v : ValueRef} {anchor : Anchor} {strict : Bool}
    {user : Option FunctionRef} (home : ctx.Anchored v anchor) (within : anchor.Within m user strict)
    (known : ∀ f ∈ user, ctx.function f = .ok fr) (inside : ∀ f ∈ user, fr.module = m)
    (other : m ≠ n) : ctx.Outlives n v := by
  refine ⟨home.live, ?_⟩
  cases anchor with
  | free => exact not_belongsTo_free home
  | module owner =>
    obtain rfl : owner = m := within
    exact not_belongsTo_other home other
  | function owner =>
    have used : user = some owner := within
    rw [belongsTo_inside home (known owner used), inside owner used]
    exact other
  | detached =>
    rintro (home' | ⟨_, _, home', _⟩)
    · cases home.unique home'
    · cases home.unique home'

section Accepted

variable {mr : ModuleRecord} (wf : ctx.WellFormed) (other : m ≠ n)
include wf other

omit wf in
theorem OperationAccepted.outlives {fr : FunctionRecord} {expected : TypeRef} {o : Operation}
    (known : ctx.function f = .ok fr) (accepted : ctx.OperationAccepted fr.module f expected o)
    (home : fr.module = m) :
    (∀ u ∈ o.operands, ctx.Outlives n u) ∧ ∀ t ∈ o.successors, ctx.BlockOutlives n t := by
  refine ⟨fun u mem => ?_, fun t mem => ?_⟩
  · obtain ⟨anchor, anchored, within⟩ := accepted.operands u mem
    refine .of_within anchored within (fun g same => ?_) (fun _ _ => rfl) (home ▸ other)
    obtain rfl := Option.some.inj same
    exact known
  · obtain ⟨br, read, parent⟩ := accepted.targets t mem
    refine ⟨⟨br, read⟩, ?_⟩
    rw [blockBelongsTo_placed read parent known, home]
    exact other

theorem FunctionAccepted.covered {fr : FunctionRecord} (known : ctx.function f = .ok fr)
    (accepted : ctx.FunctionAccepted f fr) (home : fr.module = m) :
    ctx.CoversFunction (ctx.Outlives n) (ctx.BlockOutlives n) f := by
  have elsewhere : fr.module ≠ n := home ▸ other
  obtain ⟨value, held, _⟩ := function_eq_ok.mp known
  refine ⟨⟨⟨value, held⟩, mt (belongsTo_function known).mp elsewhere⟩, fun fr' known' => ?_⟩
  obtain rfl := Checked.unique known known'
  refine ⟨fun a mem => ?_, fun b mem => ?_⟩
  · obtain ⟨ar, argued, parent⟩ := wf.function_argument known mem
    obtain ⟨record, read, kind⟩ := argument_eq_ok.mp argued
    have inside : ctx.Anchored a.value (.function f) := parent ▸ .argument read kind
    exact ⟨⟨record, read⟩, mt (belongsTo_inside inside known).mp elsewhere⟩
  · obtain ⟨_, _, _, _, blocks⟩ := accepted.defined (List.ne_nil_of_mem mem)
    obtain ⟨br, read, parent⟩ := wf.function_block known mem
    have stays : ¬ctx.BlockBelongsTo n b := mt (blockBelongsTo_placed read parent known).mp elsewhere
    refine ⟨⟨⟨br, read⟩, stays⟩, fun br' read' i listed => ?_⟩
    obtain rfl := Checked.unique read read'
    obtain ⟨br'', read'', body⟩ := blocks b mem
    obtain rfl := Checked.unique read read''
    obtain ⟨r, made, fits⟩ := body.instructions i listed
    obtain ⟨r', made', here⟩ := wf.block_instruction read listed
    obtain rfl := Checked.unique made made'
    obtain ⟨record, held', _⟩ := instruction_eq_ok.mp made
    refine ⟨⟨⟨record, held'⟩, ?_⟩, fun r' made' => ?_⟩
    · rw [belongsTo_instruction wf made, here]
      exact stays
    · obtain rfl := Checked.unique made made'
      exact fits.outlives other known home

/-- All that is read of an accepted module outlives the erasure of another. -/
theorem ModuleAccepted.covered (live : ctx.module m = .ok mr) (accepted : ctx.ModuleAccepted m mr) :
    ctx.CoversModule (ctx.Outlives n) (ctx.BlockOutlives n) m := by
  intro mr' live'
  obtain rfl := Checked.unique live live'
  refine ⟨fun g mem => ?_, fun f mem => ?_⟩
  · obtain ⟨gr, known, home⟩ := wf.module_global live mem
    obtain ⟨value, held, _⟩ := global_eq_ok.mp known
    refine ⟨⟨⟨value, held⟩, mt (belongsTo_global known).mp (home ▸ other)⟩, ?_⟩
    intro gr' known' init given
    obtain rfl := Checked.unique known known'
    have sound := (wf.globalSound known).initializer init given
    obtain ⟨record, read, _⟩ := sound.constant
    refine ⟨⟨record, read⟩, ?_⟩
    rcases sound.home with free | inside
    · exact not_belongsTo_free free
    · exact not_belongsTo_other inside (home ▸ other)
  · obtain ⟨fr, known, home⟩ := wf.module_function live mem
    obtain ⟨fr', known', judged⟩ := accepted.functions f mem
    obtain rfl := Checked.unique known known'
    exact judged.covered wf other known home

end Accepted

/-! ### Acceptance after the erasure -/

section Erased

variable (e : ctx.Erases n ctx') (wf : ctx.WellFormed) (other : m ≠ n)
include e wf other

theorem OperationAccepted.erase {fr : FunctionRecord} {expected : TypeRef} {o : Operation}
    (known : ctx.function f = .ok fr) (accepted : ctx.OperationAccepted fr.module f expected o)
    (home : fr.module = m) : ctx'.OperationAccepted fr.module f expected o := by
  obtain ⟨operands, targets⟩ := accepted.outlives other known home
  have agrees := e.agreesOn wf
  refine ⟨fun u mem => ?_, fun t mem => ?_, fun value same => ?_⟩
  · obtain ⟨anchor, anchored, within⟩ := accepted.operands u mem
    exact ⟨anchor, (e.anchored wf).mpr ⟨anchored, (operands u mem).2⟩, within⟩
  · rw [agrees.blocks t (targets t mem)]
    exact accepted.targets t mem
  · rw [← accepted.returned value same]
    cases value with
    | none => simp only [returnFits, agrees.shape]
    | some v =>
      have used : ctx.Outlives n v := operands v (by simp [same, Operation.operands])
      simp only [returnFits, agrees.valueType used]

theorem FunctionAccepted.erase {fr : FunctionRecord} (known : ctx.function f = .ok fr)
    (accepted : ctx.FunctionAccepted f fr) (home : fr.module = m) :
    ctx'.FunctionAccepted f fr := by
  obtain ⟨_, parts⟩ := accepted.covered wf other known home
  obtain ⟨_, covered⟩ := parts fr known
  have agrees := e.agreesOn wf
  have kept {i : InstructionRef} (stays : ctx.Outlives n i.value) :
      ctx'.instruction i = ctx.instruction i := by
    simp only [Context.instruction, agrees.values _ stays]
  refine ⟨accepted.declared, fun defined => ?_⟩
  obtain ⟨result, params, variadic, shaped, blocks⟩ := accepted.defined defined
  refine ⟨result, params, variadic, (e.shape _).trans shaped, fun b mem => ?_⟩
  obtain ⟨br, read, body⟩ := blocks b mem
  obtain ⟨stays, inside⟩ := covered b mem
  refine ⟨br, (agrees.blocks b stays).trans read, body.nonempty, fun i last => ?_, fun i listed => ?_⟩
  · obtain ⟨r, made, ends⟩ := body.terminated i last
    have listed : i ∈ br.instructions := List.mem_of_getLast? last
    exact ⟨r, (kept (inside br read i listed).1).trans made, ends⟩
  · obtain ⟨r, made, fits⟩ := body.instructions i listed
    exact ⟨r, (kept (inside br read i listed).1).trans made, fits.erase e wf other known home⟩

theorem ModuleAccepted.erase {mr : ModuleRecord} (live : ctx.module m = .ok mr)
    (accepted : ctx.ModuleAccepted m mr) : ctx'.ModuleAccepted m mr := by
  obtain ⟨globals, _⟩ := accepted.covered wf other live mr live
  refine ⟨fun g mem => ?_, fun f mem => ?_⟩
  · obtain ⟨gr, known, judged⟩ := accepted.globals g mem
    obtain ⟨stays, initializer⟩ := globals g mem
    refine ⟨gr, ((e.agreesOn wf).global stays).trans known, judged.declared, fun init given => ?_⟩
    obtain ⟨anchor, anchored, within⟩ := judged.initialized init given
    exact ⟨anchor, (e.anchored wf).mpr ⟨anchored, (initializer gr known init given).2⟩, within⟩
  · obtain ⟨fr, known, home⟩ := wf.module_function live mem
    obtain ⟨fr', known', judged⟩ := accepted.functions f mem
    obtain rfl := Checked.unique known known'
    exact ⟨fr, e.function.mpr ⟨known, home ▸ other⟩, judged.erase e wf other known home⟩

end Erased
end Context

namespace World

open Context

variable {w : World} {ctx : Context} {m n : ModuleRef}

/-- The erasure of a live module goes through, and leaves every other module that is accepted
accepted, with the same text. -/
theorem accepted_survives_erasure (reachable : w.Reachable) (mem : ctx ∈ w.contexts)
    (live : m ∈ ctx.liveModules) (doomed : n ∈ ctx.liveModules) (other : m ≠ n)
    (accepted : ctx.verifyModule m = .ok (.ok ())) :
    ∃ ctx' text, (Build.eraseModule n ctx).result = .ok ((), ctx') ∧
      ctx'.verifyModule m = .ok (.ok ()) ∧ ctx.moduleText m = .ok text ∧
        ctx'.moduleText m = .ok text := by
  have wf := reachable.sound.wellFormed ctx mem
  obtain ⟨mr, read⟩ := mem_liveModules.mp live
  obtain ⟨nr, gone⟩ := mem_liveModules.mp doomed
  obtain ⟨ctx', run, erases⟩ := Build.eraseModule_runs wf gone
  obtain ⟨text, listed⟩ := (moduleText_eq_ok wf read).mpr (not_dangles_of_accepted wf accepted)
  obtain ⟨mr', read', judged⟩ := (verifyModule_eq_ok wf).mp accepted
  obtain rfl := Checked.unique read read'
  have kept : ctx'.module m = .ok mr := erases.module.mpr ⟨read, other⟩
  have same : ctx'.moduleText m = ctx.moduleText m :=
    (erases.agreesOn wf).moduleText (kept.trans read.symm) (judged.covered wf other read)
  exact ⟨ctx', text, run, (verifyModule_eq_ok (erases.wellFormed wf)).mpr
    ⟨mr, kept, judged.erase erases wf other read⟩, listed, same.trans listed⟩

/-- Two modules with a string each, behind pointer arithmetic with the same indices; the first one
has a function that is complete. -/
def twoStrings : World := after [.context, .request 0 .voidType,
  .request 0 (.functionType ⟨⟨1⟩, 0⟩ [] false), .request 0 (.createModule ""),
  .request 0 (.createModule ""),
  .request 0 (.createFunction ⟨⟨⟨1⟩, 1⟩⟩ .external "" ⟨⟨1⟩, 0⟩),
  .request 0 (.createBlock "" (some ⟨⟨⟨1⟩, 0⟩⟩) none), .request 0 (.createReturn none ⟨⟨1⟩, 0⟩),
  .request 0 (.globalString ⟨⟨1⟩, 0⟩ "hi" ""), .request 0 (.globalString ⟨⟨1⟩, 1⟩ "hi" "")]

theorem twoStrings_survive : ∃ ctx ∈ twoStrings.contexts,
    ⟨⟨1⟩, 0⟩ ∈ ctx.liveModules ∧ ⟨⟨1⟩, 1⟩ ∈ ctx.liveModules ∧
      ctx.verifyModule ⟨⟨1⟩, 0⟩ = .ok (.ok ()) ∧
        ∃ ctx' text, (Build.eraseModule ⟨⟨1⟩, 1⟩ ctx).result = .ok ((), ctx') ∧
          ctx'.verifyModule ⟨⟨1⟩, 0⟩ = .ok (.ok ()) ∧ ctx.moduleText ⟨⟨1⟩, 0⟩ = .ok text ∧
            ctx'.moduleText ⟨⟨1⟩, 0⟩ = .ok text := by
  have computed : (twoStrings.contexts[0]?).any (fun ctx : Context =>
      ⟨⟨1⟩, 0⟩ ∈ ctx.liveModules ∧ ⟨⟨1⟩, 1⟩ ∈ ctx.liveModules ∧
        ctx.verifyModule ⟨⟨1⟩, 0⟩ = .ok (.ok ())) = true := by decide +kernel
  obtain ⟨ctx, found, computed⟩ := (Option.any_eq_true _ _).mp computed
  obtain ⟨live, doomed, accepted⟩ := of_decide_eq_true computed
  have mem : ctx ∈ twoStrings.contexts := List.mem_of_getElem? found
  exact ⟨ctx, mem, live, doomed, accepted,
    accepted_survives_erasure (reachable_after (by decide +kernel)) mem live doomed (by decide)
      accepted⟩

end World
end ModuleIR
