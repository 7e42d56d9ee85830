import ModuleIR.Proofs.Consistency.Checks
import ModuleIR.Proofs.Listing.Faults

set_option autoImplicit false

/-!
# Listings are consistent

A listing through an admitted handle may hold violations, for handles of other contexts and for what
is erased, but none of them is a handle that breaks its promise: the arms of the printer that no
value should reach are not reached.
-/
namespace ModuleIR

namespace Listing

open Checked (consistent_ok)

/-- No place of the listing holds a broken promise. -/
def Consistent (l : Listing) : Prop := ∀ what, Piece.fault (.inconsistent what) ∉ l

variable {l l' : Listing}

@[simp] theorem consistent_nil : Consistent [] := by simp [Consistent]

@[simp] theorem consistent_text {text : String} : Consistent (.text text :: l) ↔ l.Consistent := by
  simp [Consistent]

@[simp] theorem consistent_append : Consistent (l ++ l') ↔ l.Consistent ∧ l'.Consistent := by
  simp only [Consistent, List.mem_append, not_or, forall_and]

theorem Faultless.consistent (h : l.Faultless) : l.Consistent := fun _ => h _

theorem consistent_referent {name : Option String} {slot : Option Nat} :
    Consistent [referent name slot] :=
  Faultless.consistent (faultless_referent.mpr faultless_nil)

theorem consistent_flatMap {α : Type} {next : α → Listing} {as : List α}
    (each : ∀ a ∈ as, (next a).Consistent) : Consistent (as.flatMap next) := by
  intro what mem
  obtain ⟨a, member, inside⟩ := List.mem_flatMap.mp mem
  exact each a member what inside

theorem consistent_separated {separator : String} {ls : List Listing}
    (each : ∀ l ∈ ls, l.Consistent) : Consistent (separated separator ls) := by
  induction ls with
  | nil => exact consistent_nil
  | cons first rest ih =>
    rw [List.forall_mem_cons] at each
    cases rest with
    | nil => exact each.1
    | cons second rest =>
      exact consistent_append.mpr ⟨each.1, consistent_text.mpr (ih each.2)⟩

theorem consistent_reading {α : Type} {read : Checked α} {next : α → Listing}
    (first : read.Consistent) (second : ∀ a, read = .ok a → (next a).Consistent) :
    Consistent (reading read next) := by
  cases read with
  | ok a => exact second a rfl
  | error v =>
    intro what mem
    exact first what (congrArg Except.error (Piece.fault.inj (List.mem_singleton.mp mem)).symm)

theorem Consistent.render (h : l.Consistent) : l.render.Consistent := by
  induction l with
  | nil => exact consistent_ok
  | cons piece rest ih =>
    rw [render_cons]
    have others : Consistent rest := fun what mem => h what (List.mem_cons_of_mem _ mem)
    refine Checked.Consistent.bind ?_ fun _ _ => (ih others).bind fun _ _ => consistent_ok
    cases piece with
    | text | unresolved => exact consistent_ok
    | fault v =>
      refine Checked.consistent_error.mpr fun what same => ?_
      exact h what (same ▸ List.mem_cons_self)

end Listing

namespace Context

open Checked (Consistent consistent_ok)

variable {ctx : Context} (wf : ctx.WellFormed)
include wf

theorem consistent_globalSlots {m : ModuleRef} (h : ctx.Admits (.module m)) :
    Consistent (ctx.globalSlots m) :=
  (consistent_module h).reads fun _ live => globalSlots_reads wf live

theorem consistent_localSlots {f : FunctionRef} (h : ctx.Admits (.value .function f.value)) :
    Consistent (ctx.localSlots f) :=
  (consistent_function h).reads fun _ known => localSlots_reads wf known

theorem consistent_moduleSlots {f : FunctionRef} (h : ctx.Admits (.value .function f.value)) :
    Consistent (do ctx.globalSlots (← ctx.function f).module) :=
  (consistent_function h).bind fun _ known => consistent_globalSlots wf (module_of_function wf known)

end Context

namespace Listing

open Context
open Checked (consistent_ok)

variable {ctx : Context} (wf : ctx.WellFormed)
include wf

/-! ### Operands and instructions -/

theorem consistent_ref {slots : Slots} {view : ValueView} {v : ValueRef}
    (h : ctx.Admits (.value view v)) : (ref ctx slots v).Consistent :=
  consistent_reading (consistent_value h) fun r read => by
    have whole : (ref ctx slots v).Consistent := ((faultless_ref wf).mpr ⟨r, read⟩).consistent
    rwa [ref, refWithin, read] at whole

theorem consistent_operand {slots : Slots} {view : ValueView} {v : ValueRef}
    (h : ctx.Admits (.value view v)) : (operand ctx slots v).Consistent :=
  consistent_reading (consistent_describeTypeOf wf h) fun _ _ =>
    consistent_text.mpr (consistent_ref wf h)

omit wf in
theorem consistent_blockRef {slots : Slots} {b : BlockRef} (h : ctx.Admits (.block b)) :
    (blockRef ctx slots b).Consistent :=
  consistent_text.mpr (consistent_reading (consistent_block h) fun _ _ => consistent_referent)

theorem consistent_calledTypeText {callee : ValueRef} {result : TypeRef}
    (h : ctx.Admits (.value .any callee)) (typed : ctx.HasType result) :
    (calledTypeText ctx callee result).Consistent := by
  refine (consistent_calleeSignature? wf h).bind fun found called => ?_
  have described : (ctx.describeType result).Consistent := .of_ok ⟨_, wf.describeType_eq typed⟩
  cases found with
  | none => exact described
  | some signature =>
    obtain ⟨_, _, _, signed⟩ := calleeSignature?_shape called
    refine (Checked.Consistent.of_ok ⟨_, signed⟩).bind fun parts _ => ?_
    dsimp only
    split
    · exact consistent_describeTypeOf wf h
    · exact described

theorem consistent_operation {slots : Slots} {type : TypeRef} {o : Operation}
    (typed : ctx.HasType type) (operands : ∀ u ∈ o.operands, ctx.Admits (.value .any u))
    (successors : ∀ b ∈ o.successors, ctx.Admits (.block b)) :
    (operation ctx slots type o).Consistent := by
  cases o with
  | call callee args convention =>
    obtain ⟨arguments, called⟩ := List.forall_mem_append.mp operands
    have callee := called _ List.mem_cons_self
    refine consistent_text.mpr
      (consistent_reading (consistent_calledTypeText wf callee typed) fun _ _ => ?_)
    have listed : ∀ l ∈ args.map (operand ctx slots), Consistent l := by
      intro l mem
      obtain ⟨u, member, rfl⟩ := List.mem_map.mp mem
      exact consistent_operand wf (arguments u member)
    simp [consistent_ref wf callee, consistent_separated listed]
  | ret value =>
    cases value with
    | none => simp [operation]
    | some v => exact consistent_text.mpr (consistent_operand wf (operands v List.mem_cons_self))
  | br target => exact consistent_text.mpr (consistent_blockRef (successors _ List.mem_cons_self))
  | condBr cond ifTrue ifFalse =>
    obtain ⟨yes, no⟩ := List.forall_mem_cons.mp successors
    simp [operation, consistent_operand wf (operands _ List.mem_cons_self), consistent_blockRef yes,
      consistent_blockRef (no _ List.mem_cons_self)]

theorem consistent_instruction {slots : Slots} {view : ValueView} (of : OfInstruction view)
    {i : InstructionRef} (h : ctx.Admits (.value view i.value)) :
    (instruction ctx slots i).Consistent := by
  refine consistent_reading (consistent_value h) fun r read => ?_
  refine consistent_reading (.of_ok (wf.valueSound read).type) fun shape _ => ?_
  refine consistent_append.mpr ⟨?_, consistent_reading (Context.consistent_operation of h)
    fun o known => ?_⟩
  · split
    · exact consistent_nil
    · exact consistent_append.mpr ⟨consistent_ref wf h, by simp⟩
  · obtain ⟨ir, made, rfl⟩ := operation_eq_ok.mp known
    exact consistent_operation wf (wf.valueSound read).type (operands_admitted wf made)
      (successors_admitted wf made)

/-! ### Globals, functions and modules -/

theorem consistent_globalLine {slots : Slots} {g : GlobalRef}
    (h : ctx.Admits (.value .global g.value)) : (globalLine ctx slots g).Consistent := by
  refine consistent_append.mpr ⟨consistent_ref wf h, consistent_reading (consistent_global h)
    fun gr known => ?_⟩
  refine consistent_reading (.of_ok ⟨_, wf.describeType_eq (wf.globalSound known).valueType⟩)
    fun _ _ => consistent_text.mpr ?_
  cases given : gr.initializer with
  | none => exact consistent_nil
  | some init =>
    obtain ⟨r, held, _⟩ := ((wf.globalSound known).initializer init given).constant
    exact consistent_text.mpr (consistent_ref wf (admits_of_value ⟨r, held⟩))

theorem consistent_blockLines {slots : Slots} {first : Bool} {b : BlockRef}
    (h : ctx.Admits (.block b)) : (blockLines ctx slots first b).Consistent := by
  refine consistent_append.mpr ⟨by cases first <;> simp, consistent_reading (consistent_block h)
    fun br read => consistent_append.mpr ⟨?_, consistent_flatMap fun i mem => ?_⟩⟩
  · cases br.name <;> cases first <;> simp [labelLine]
  · obtain ⟨ir, made, _⟩ := wf.block_instruction read mem
    obtain ⟨r, held, _⟩ := instruction_eq_ok.mp made
    have typed : ctx.Holds (.value .instruction i.value) :=
      holds_value held (by simp_all [ValueView.accepts])
    simp only [List.cons_append, consistent_text, consistent_append, consistent_nil, and_true]
    exact consistent_instruction wf ofInstruction_instruction fun _ => typed.2

theorem consistent_functionLines {globals : List ValueRef} {f : FunctionRef}
    (h : ctx.Admits (.value .function f.value)) : (functionLines ctx globals f).Consistent := by
  refine consistent_reading (consistent_localSlots wf h) fun locals _ => ?_
  refine consistent_reading (consistent_function h) fun fr known => ?_
  obtain ⟨result, params, variadic, shaped⟩ := (wf.functionSound known).signature
  have signed : ctx.signature fr.signature = .ok (result, params, variadic) :=
    signature_eq_ok.mpr shaped
  have written := wf.describeType_eq (wf.hasType_inner shaped List.mem_cons_self)
  refine consistent_reading (.of_ok ⟨_, signed⟩) fun parts again => ?_
  obtain rfl := Checked.unique signed again
  have header {slots : Slots} : ∀ l ∈ fr.args.map (parameter ctx slots fr.blocks.isEmpty) ++
      (if variadic then [[.text "..."]] else []), Consistent l := by
    intro l mem
    rcases List.mem_append.mp mem with argument | dots
    · obtain ⟨a, listed, rfl⟩ := List.mem_map.mp argument
      obtain ⟨ar, argued, _⟩ := wf.function_argument known listed
      obtain ⟨r, read, _⟩ := argument_eq_ok.mp argued
      have live : ctx.Admits (.value .any a.value) := admits_of_value ⟨r, read⟩
      unfold parameter
      split
      · exact consistent_reading (consistent_describeTypeOf wf live) fun _ _ => by simp
      · exact consistent_operand wf live
    · cases variadic <;> simp_all
  have block {slots : Slots} {first : Bool} {b : BlockRef} (mem : b ∈ fr.blocks) :
      (blockLines ctx slots first b).Consistent := by
    obtain ⟨br, read, _⟩ := wf.function_block known mem
    exact consistent_blockLines wf fun _ => (holds_block read).2
  have body {slots : Slots} : (bodyLines ctx slots fr.blocks).Consistent := by
    cases listed : fr.blocks with
    | nil => exact consistent_nil
    | cons b rest =>
      exact consistent_append.mpr ⟨block (listed ▸ List.mem_cons_self), consistent_flatMap
        fun c mem => block (listed ▸ List.mem_cons_of_mem _ mem)⟩
  simp only [reading, written, List.cons_append, consistent_text, consistent_append,
    consistent_ref wf h, consistent_separated header, true_and]
  split <;> simp [body]

theorem consistent_function {f : FunctionRef} (h : ctx.Admits (.value .function f.value)) :
    (function ctx f).Consistent :=
  consistent_reading (consistent_moduleSlots wf h) fun _ _ => consistent_functionLines wf h

theorem consistent_globalAlone {g : GlobalRef} (h : ctx.Admits (.value .global g.value)) :
    (global ctx g).Consistent := by
  refine consistent_reading ((consistent_global h).bind fun gr known => ?_) fun _ _ =>
    consistent_globalLine wf h
  obtain ⟨mr, live, _⟩ := (wf.globalSound known).listed
  exact consistent_globalSlots wf (admits_of_module ⟨mr, live⟩)

theorem consistent_module {m : ModuleRef} (h : ctx.Admits (.module m)) :
    (module ctx m).Consistent := by
  refine consistent_reading (consistent_globalSlots wf h) fun globals _ => ?_
  refine consistent_reading (Context.consistent_module h) fun mr live => ?_
  simp only [List.cons_append, consistent_text, consistent_append]
  refine ⟨⟨by split <;> simp, consistent_flatMap fun g mem => ?_⟩, consistent_flatMap fun f mem => ?_⟩
  · obtain ⟨gr, known, _⟩ := wf.module_global live mem
    have line : (globalLine ctx { globals } g).Consistent :=
      consistent_globalLine wf fun _ => (holds_global known rfl).2
    simpa using line
  · obtain ⟨fr, known, _⟩ := wf.module_function live mem
    exact consistent_text.mpr (consistent_functionLines wf (admits_of_function ⟨fr, known⟩))

theorem consistent_slotsAround {b : BlockRef} (h : ctx.Admits (.block b)) :
    (slotsAround ctx b).Consistent := by
  refine (consistent_block h).bind fun br read => ?_
  cases parent : br.parent with
  | none => exact consistent_ok
  | some f =>
    obtain ⟨fr, known, _⟩ := wf.block_listed read parent
    have live : ctx.Admits (.value .function f.value) := admits_of_function ⟨fr, known⟩
    exact (Context.consistent_function live).bind fun _ again =>
      (consistent_globalSlots wf (module_of_function wf again)).bind fun _ _ =>
        (consistent_localSlots wf live).bind fun _ _ => consistent_ok

theorem consistent_valueAlone {view : ValueView} {v : ValueRef} (h : ctx.Admits (.value view v)) :
    (value ctx v).Consistent := by
  refine consistent_reading (consistent_value h) fun r read => ?_
  have seen {view : ValueView} (accepted : view.accepts r.kind = true) :
      ctx.Admits (.value view v) := fun _ => (holds_value read accepted).2
  cases kind : r.kind with
  | global g => exact consistent_globalAlone (g := ⟨v⟩) wf (seen (by simp [kind, ValueView.accepts]))
  | function f => exact consistent_function (f := ⟨v⟩) wf (seen (by simp [kind, ValueView.accepts]))
  | instruction i =>
    obtain ⟨br, held, _⟩ := wf.instruction_listed (instruction_eq_ok.mpr ⟨r, read, kind⟩ :
      ctx.instruction ⟨v⟩ = .ok i)
    exact consistent_reading (consistent_slotsAround wf fun _ => (holds_block held).2) fun _ _ =>
      consistent_instruction (i := ⟨v⟩) wf ofInstruction_instruction
        (seen (by simp [kind, ValueView.accepts]))
  | argument a =>
    obtain ⟨fr, known, _⟩ := wf.argument_listed (argument_eq_ok.mpr ⟨r, read, kind⟩ :
      ctx.argument ⟨v⟩ = .ok a)
    have live : ctx.Admits (.value .function a.parent.value) := admits_of_function ⟨fr, known⟩
    exact consistent_reading ((Context.consistent_function live).bind fun _ again =>
      (consistent_globalSlots wf (module_of_function wf again)).bind fun _ _ =>
        (consistent_localSlots wf live).bind fun _ _ => consistent_ok) fun _ _ =>
          consistent_operand wf h
  | _ => exact consistent_operand wf h

end Listing
end ModuleIR
