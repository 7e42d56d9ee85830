import ModuleIR.Listing.Modules
import ModuleIR.Proofs.Arena.References
import ModuleIR.Proofs.Listing.TypeTexts

set_option autoImplicit false

/-!
# When a listing has a text

A listing is rendered exactly when it holds no violation. In a well-formed context everything that
the listing of a live module reads is alive, but for what its placed instructions refer to: the
module has a text exactly when nothing in it dangles.
-/
namespace ModuleIR

namespace Listing

/-- No place of the listing holds a violation. -/
def Faultless (l : Listing) : Prop := ∀ violation, Piece.fault violation ∉ l

variable {l l' : Listing}

@[simp] theorem faultless_nil : Faultless [] := by simp [Faultless]

@[simp] theorem faultless_text {text : String} : Faultless (.text text :: l) ↔ l.Faultless := by
  simp [Faultless]

@[simp] theorem faultless_unresolved : Faultless (.unresolved :: l) ↔ l.Faultless := by
  simp [Faultless]

@[simp] theorem not_faultless_fault {violation : Violation} :
    ¬Faultless (.fault violation :: l) := fun h => h violation List.mem_cons_self

@[simp] theorem faultless_append : Faultless (l ++ l') ↔ l.Faultless ∧ l'.Faultless := by
  simp only [Faultless, List.mem_append, not_or, forall_and]

@[simp] theorem faultless_referent {name : Option String} {slot : Option Nat} :
    Faultless (referent name slot :: l) ↔ l.Faultless := by
  cases name <;> cases slot <;> simp [referent]

theorem faultless_flatMap {α : Type} {next : α → Listing} {as : List α} :
    Faultless (as.flatMap next) ↔ ∀ a ∈ as, (next a).Faultless := by
  induction as with
  | nil => simp
  | cons a rest ih => simp [ih]

theorem faultless_separated {separator : String} {ls : List Listing} :
    Faultless (separated separator ls) ↔ ∀ l ∈ ls, l.Faultless := by
  induction ls with
  | nil => simp [separated]
  | cons first rest ih =>
    cases rest with
    | nil => simp [separated]
    | cons second rest => simp [separated, ih]

theorem faultless_reading {α : Type} {read : Checked α} {next : α → Listing} :
    Faultless (reading read next) ↔ ∃ a, read = .ok a ∧ (next a).Faultless := by
  cases read <;> simp [reading]

/-- A listing has a text exactly when it holds no violation. -/
theorem render_eq_ok : (∃ text, l.render = .ok text) ↔ l.Faultless := by
  induction l with
  | nil => simp
  | cons piece rest ih =>
    rw [render_cons]
    have joined (first : String) : (∃ text, (do return first ++ (← render rest)) = Except.ok text) ↔
        Faultless rest := by
      rw [← ih]
      cases render rest <;> simp
    cases piece with
    | text text => exact (joined text).trans faultless_text.symm
    | unresolved => exact (joined _).trans faultless_unresolved.symm
    | fault violation => simp [Piece.content]

end Listing

namespace Context

variable {ctx : Context} (wf : ctx.WellFormed)
include wf

/-! ### Numbers of unnamed entities -/

omit wf in
theorem unnamedValues_reads {vs : List ValueRef} (live : ∀ v ∈ vs, ∃ r, ctx.value v = .ok r) :
    ∃ slots, ctx.unnamedValues vs = .ok slots := by
  induction vs with
  | nil => exact ⟨[], rfl⟩
  | cons v rest ih =>
    obtain ⟨r, read⟩ := live v List.mem_cons_self
    obtain ⟨slots, others⟩ := ih fun u mem => live u (List.mem_cons_of_mem _ mem)
    exact ⟨_, Checked.bind_eq_ok.mpr ⟨_, valueName_eq_ok.mpr ⟨r, read, rfl⟩,
      Checked.bind_eq_ok.mpr ⟨slots, others, rfl⟩⟩⟩

theorem globalSlots_reads {m : ModuleRef} {mr : ModuleRecord} (live : ctx.module m = .ok mr) :
    ∃ slots, ctx.globalSlots m = .ok slots := by
  obtain ⟨slots, numbered⟩ : ∃ slots, ctx.unnamedValues
      (mr.globals.map (·.value) ++ mr.functions.map (·.value)) = .ok slots := by
    refine unnamedValues_reads fun v mem => ?_
    rcases List.mem_append.mp mem with global | function
    · obtain ⟨g, listed, rfl⟩ := List.mem_map.mp global
      obtain ⟨gr, known, _⟩ := wf.module_global live listed
      obtain ⟨r, read, _⟩ := global_eq_ok.mp known
      exact ⟨r, read⟩
    · obtain ⟨f, listed, rfl⟩ := List.mem_map.mp function
      obtain ⟨fr, known, _⟩ := wf.module_function live listed
      obtain ⟨r, read, _⟩ := function_eq_ok.mp known
      exact ⟨r, read⟩
  exact ⟨slots, Checked.bind_eq_ok.mpr ⟨mr, live, numbered⟩⟩

theorem instructionSlots_reads {is : List InstructionRef}
    (live : ∀ i ∈ is, ∃ r, ctx.instruction i = .ok r) :
    ∃ slots, ctx.instructionSlots is = .ok slots := by
  induction is with
  | nil => exact ⟨[], rfl⟩
  | cons i rest ih =>
    obtain ⟨ir, made⟩ := live i List.mem_cons_self
    obtain ⟨r, read, _⟩ := instruction_eq_ok.mp made
    obtain ⟨shape, shaped⟩ := (wf.valueSound read).type
    obtain ⟨slots, others⟩ := ih fun j mem => live j (List.mem_cons_of_mem _ mem)
    exact ⟨_, Checked.bind_eq_ok.mpr ⟨r, read, Checked.bind_eq_ok.mpr ⟨shape, shaped,
      Checked.bind_eq_ok.mpr ⟨slots, others, rfl⟩⟩⟩⟩

theorem blockSlots_reads {bs : List BlockRef} (live : ∀ b ∈ bs, ∃ br, ctx.block b = .ok br) :
    ∃ slots, ctx.blockSlots bs = .ok slots := by
  induction bs with
  | nil => exact ⟨[], rfl⟩
  | cons b rest ih =>
    obtain ⟨br, read⟩ := live b List.mem_cons_self
    obtain ⟨inside, numbered⟩ : ∃ slots, ctx.instructionSlots br.instructions = .ok slots := by
      refine instructionSlots_reads wf fun i mem => ?_
      obtain ⟨ir, made, _⟩ := wf.block_instruction read mem
      exact ⟨ir, made⟩
    obtain ⟨slots, others⟩ := ih fun c mem => live c (List.mem_cons_of_mem _ mem)
    exact ⟨_, Checked.bind_eq_ok.mpr ⟨br, read, Checked.bind_eq_ok.mpr ⟨inside, numbered,
      Checked.bind_eq_ok.mpr ⟨slots, others, rfl⟩⟩⟩⟩

theorem localSlots_reads {f : FunctionRef} {fr : FunctionRecord} (known : ctx.function f = .ok fr) :
    ∃ slots, ctx.localSlots f = .ok slots := by
  obtain ⟨args, named⟩ : ∃ slots, ctx.unnamedValues (fr.args.map (·.value)) = .ok slots := by
    refine unnamedValues_reads fun v mem => ?_
    obtain ⟨a, listed, rfl⟩ := List.mem_map.mp mem
    obtain ⟨ar, argued, _⟩ := wf.function_argument known listed
    obtain ⟨r, read, _⟩ := argument_eq_ok.mp argued
    exact ⟨r, read⟩
  obtain ⟨blocks, numbered⟩ : ∃ slots, ctx.blockSlots fr.blocks = .ok slots := by
    refine blockSlots_reads wf fun b mem => ?_
    obtain ⟨br, read, _⟩ := wf.function_block known mem
    exact ⟨br, read⟩
  exact ⟨_, Checked.bind_eq_ok.mpr ⟨fr, known, Checked.bind_eq_ok.mpr ⟨args, named,
    Checked.bind_eq_ok.mpr ⟨blocks, numbered, rfl⟩⟩⟩⟩

end Context

namespace Listing

open Context

variable {ctx : Context} (wf : ctx.WellFormed)

/-! ### Operands and instructions -/

include wf in
theorem faultless_refWithin {slots : Slots} {depth : Nat} {v : ValueRef} (deep : v.index < depth) :
    (refWithin ctx slots depth v).Faultless ↔ ctx.Lives (.value .any v) := by
  induction depth generalizing v with
  | zero => omega
  | succ depth ih =>
    rw [refWithin, faultless_reading]
    refine exists_congr fun r => and_iff_left_of_imp fun read => ?_
    cases kind : r.kind with
    | elementPtr e =>
      have sound := wf.elementPtrSound read kind
      have inner {u : ValueRef} (before : u.index < v.index) (live : ∃ r, ctx.value u = .ok r) :
          Faultless (reading (ctx.describeTypeOf u) fun type =>
            .text (type ++ " ") :: refWithin ctx slots depth u) := by
        obtain ⟨record, held⟩ := live
        refine faultless_reading.mpr ⟨_, wf.describeTypeOf_eq held, ?_⟩
        exact faultless_text.mpr ((ih (by omega)).mpr ⟨record, held⟩)
      obtain ⟨base, held, _⟩ := sound.base
      refine faultless_reading.mpr ⟨_, wf.describeType_eq sound.sourceType, ?_⟩
      simp only [List.cons_append, faultless_text, faultless_append, faultless_flatMap]
      refine ⟨⟨inner sound.baseBefore ⟨base, held⟩, fun u mem => ?_⟩, faultless_nil⟩
      obtain ⟨index, _, held', _⟩ := sound.indices u mem
      exact inner (sound.indicesBefore u mem) ⟨index, held'⟩
    | erased => exact absurd kind (value_eq_ok.mp read).2.2
    | _ => simp

include wf in
theorem faultless_ref {slots : Slots} {v : ValueRef} :
    (ref ctx slots v).Faultless ↔ ctx.Lives (.value .any v) :=
  faultless_refWithin wf (Nat.lt_succ_self _)

include wf in
theorem faultless_operand {slots : Slots} {v : ValueRef} :
    (operand ctx slots v).Faultless ↔ ctx.Lives (.value .any v) := by
  rw [operand, faultless_reading]
  constructor
  · rintro ⟨ty, _, rest⟩
    exact (faultless_ref wf).mp (faultless_text.mp rest)
  · rintro ⟨r, read⟩
    exact ⟨_, wf.describeTypeOf_eq read, faultless_text.mpr ((faultless_ref wf).mpr ⟨r, read⟩)⟩

theorem faultless_blockRef {slots : Slots} {b : BlockRef} :
    (blockRef ctx slots b).Faultless ↔ ctx.Lives (.block b) := by
  simp [blockRef, faultless_reading, Lives]

include wf in
theorem calledTypeText_reads {callee : ValueRef} {result : TypeRef}
    (live : ctx.Lives (.value .any callee)) (has : ctx.HasType result) :
    ∃ text, calledTypeText ctx callee result = .ok text := by
  obtain ⟨r, read⟩ := live
  obtain ⟨shape, shaped⟩ := (wf.valueSound read).type
  have typed : ctx.valueType callee = .ok r.type := valueType_eq_ok.mpr ⟨r, read, rfl⟩
  have whole := wf.describeTypeOf_eq read
  have returned := wf.describeType_eq has
  cases shape with
  | pointer pointee space =>
    obtain ⟨called, held⟩ := wf.hasType_inner shaped List.mem_cons_self
    cases called with
    | function result' params variadic =>
      have signed : ctx.signature ⟨pointee⟩ = .ok (result', params, variadic) :=
        signature_eq_ok.mpr held
      cases variadic <;> simp [calledTypeText, calleeSignature?, typed, shaped, held, signed,
        Shape.isFunction, whole, returned]
    | _ => simp [calledTypeText, calleeSignature?, typed, shaped, held, Shape.isFunction, returned]
  | _ => simp [calledTypeText, calleeSignature?, typed, shaped, returned]

include wf in
theorem faultless_operation {slots : Slots} {type : TypeRef} {o : Operation}
    (has : ctx.HasType type) :
    (operation ctx slots type o).Faultless ↔ ∀ h ∈ o.handles, ctx.Lives h := by
  cases o with
  | call callee args convention =>
    simp only [operation, faultless_text, faultless_reading, List.cons_append, faultless_append,
      faultless_ref wf, faultless_separated, List.forall_mem_map, faultless_operand wf,
      Operation.handles, Operation.operands, Operation.successors, List.map_nil, List.append_nil,
      List.forall_mem_append, List.forall_mem_singleton]
    constructor
    · rintro ⟨_, _, ⟨live, lives⟩, _⟩
      exact ⟨lives, live⟩
    · rintro ⟨lives, live⟩
      obtain ⟨text, called⟩ := calledTypeText_reads wf live has
      exact ⟨text, called, ⟨live, lives⟩, faultless_nil⟩
  | ret value =>
    cases value with
    | none => simp [operation, Operation.handles, Operation.operands, Operation.successors]
    | some v =>
      simp [operation, faultless_operand wf, Operation.handles, Operation.operands,
        Operation.successors]
  | br target =>
    simp [operation, faultless_blockRef, Operation.handles, Operation.operands,
      Operation.successors]
  | condBr cond ifTrue ifFalse =>
    simp [operation, faultless_operand wf, faultless_blockRef, Operation.handles,
      Operation.operands, Operation.successors]

include wf in
theorem faultless_instruction {slots : Slots} {i : InstructionRef} {r : InstructionRecord}
    (made : ctx.instruction i = .ok r) :
    (instruction ctx slots i).Faultless ↔ ∀ h ∈ r.operation.handles, ctx.Lives h := by
  obtain ⟨record, read, kind⟩ := instruction_eq_ok.mp made
  obtain ⟨shape, shaped⟩ := (wf.valueSound read).type
  have known : ctx.operation i = .ok r.operation := operation_eq_ok.mpr ⟨r, made, rfl⟩
  have self : (ref ctx slots i.value).Faultless := (faultless_ref wf).mpr ⟨record, read⟩
  simp only [instruction, reading, read, shaped, known]
  split <;> simp [self, faultless_operation wf ⟨shape, shaped⟩]

/-! ### Functions and modules -/

include wf in
theorem faultless_blockLines {slots : Slots} {first : Bool} {b : BlockRef} {br : BlockRecord}
    (read : ctx.block b = .ok br) : (blockLines ctx slots first b).Faultless ↔
      ∀ i ∈ br.instructions, ∀ r, ctx.instruction i = .ok r →
        ∀ h ∈ r.operation.handles, ctx.Lives h := by
  have blank : Faultless (if first then [] else [.text "\n"]) := by cases first <;> simp
  have label : (labelLine slots first b br.name).Faultless := by
    cases name : br.name <;> cases first <;> simp [labelLine]
  simp only [blockLines, reading, read, faultless_append, blank, label, true_and, instructionLines,
    faultless_flatMap, List.cons_append, faultless_text, faultless_nil, and_true]
  refine forall₂_congr fun i mem => ?_
  obtain ⟨r, made, _⟩ := wf.block_instruction read mem
  rw [faultless_instruction wf made]
  constructor
  · intro sound r' made'
    obtain rfl := Checked.unique made made'
    exact sound
  · exact fun sound => sound r made

include wf in
theorem faultless_bodyLines {slots : Slots} {bs : List BlockRef}
    (live : ∀ b ∈ bs, ∃ br, ctx.block b = .ok br) : (bodyLines ctx slots bs).Faultless ↔
      ∀ b ∈ bs, ∀ br, ctx.block b = .ok br → ∀ i ∈ br.instructions, ∀ r,
        ctx.instruction i = .ok r → ∀ h ∈ r.operation.handles, ctx.Lives h := by
  have lines {first : Bool} {b : BlockRef} (mem : b ∈ bs) :
      (blockLines ctx slots first b).Faultless ↔ ∀ br, ctx.block b = .ok br →
        ∀ i ∈ br.instructions, ∀ r, ctx.instruction i = .ok r →
          ∀ h ∈ r.operation.handles, ctx.Lives h := by
    obtain ⟨br, read⟩ := live b mem
    rw [faultless_blockLines wf read]
    constructor
    · intro sound br' read'
      obtain rfl := Checked.unique read read'
      exact sound
    · exact fun sound => sound br read
  cases bs with
  | nil => simp [bodyLines]
  | cons b rest =>
    rw [bodyLines, faultless_append, faultless_flatMap, List.forall_mem_cons,
      lines List.mem_cons_self]
    exact and_congr_right fun _ =>
      forall₂_congr fun c mem => lines (List.mem_cons_of_mem _ mem)

include wf in
theorem faultless_functionLines {globals : List ValueRef} {f : FunctionRef} {fr : FunctionRecord}
    (known : ctx.function f = .ok fr) : (functionLines ctx globals f).Faultless ↔
      ∀ i r, ctx.PlacedIn i r f → ∀ h ∈ r.operation.handles, ctx.Lives h := by
  obtain ⟨locals, numbered⟩ := localSlots_reads wf known
  obtain ⟨result, params, variadic, shaped⟩ := (wf.functionSound known).signature
  have signed : ctx.signature fr.signature = .ok (result, params, variadic) :=
    signature_eq_ok.mpr shaped
  obtain ⟨value, held, _⟩ := function_eq_ok.mp known
  have name {slots : Slots} : (ref ctx slots f.value).Faultless :=
    (faultless_ref wf).mpr ⟨value, held⟩
  have header {slots : Slots} : ∀ l ∈ fr.args.map (parameter ctx slots fr.blocks.isEmpty) ++
      (if variadic then [[.text "..."]] else []), Faultless l := by
    intro l mem
    rcases List.mem_append.mp mem with argument | dots
    · obtain ⟨a, listed, rfl⟩ := List.mem_map.mp argument
      obtain ⟨ar, argued, _⟩ := wf.function_argument known listed
      obtain ⟨r, read, _⟩ := argument_eq_ok.mp argued
      unfold parameter
      split
      · exact faultless_reading.mpr ⟨_, wf.describeTypeOf_eq read, by simp⟩
      · exact (faultless_operand wf).mpr ⟨r, read⟩
    · cases variadic <;> simp_all
  have body {slots : Slots} : (bodyLines ctx slots fr.blocks).Faultless ↔
      ∀ i r, ctx.PlacedIn i r f → ∀ h ∈ r.operation.handles, ctx.Lives h := by
    rw [faultless_bodyLines wf fun b mem => by
      obtain ⟨br, read, _⟩ := wf.function_block known mem
      exact ⟨br, read⟩]
    simp only [wf.placedIn_iff known]
    constructor
    · rintro sound i r ⟨made, b, mem, br, read, listed⟩
      exact sound b mem br read i listed r made
    · exact fun sound b mem br read i listed r made => sound i r ⟨made, b, mem, br, read, listed⟩
  have written := wf.describeType_eq (wf.hasType_inner shaped List.mem_cons_self)
  simp only [functionLines, reading, numbered, known, signed, written, List.cons_append,
    faultless_text, faultless_append, name, true_and, faultless_separated]
  rw [and_iff_right header]
  cases declared : fr.blocks.isEmpty with
  | true =>
    have empty : fr.blocks = [] := List.isEmpty_iff.mp declared
    simp [wf.placedIn_iff known, empty]
  | false => simpa using body

include wf in
theorem faultless_globalLine {slots : Slots} {g : GlobalRef} {gr : GlobalRecord}
    (known : ctx.global g = .ok gr) : (globalLine ctx slots g).Faultless := by
  obtain ⟨value, read, _⟩ := global_eq_ok.mp known
  have name : (ref ctx slots g.value).Faultless := (faultless_ref wf).mpr ⟨value, read⟩
  have written := wf.describeType_eq (wf.globalSound known).valueType
  simp only [globalLine, reading, known, written, faultless_append, name, faultless_text, true_and]
  cases given : gr.initializer with
  | none => exact faultless_nil
  | some init =>
    obtain ⟨r, held, _⟩ := ((wf.globalSound known).initializer init given).constant
    exact faultless_text.mpr ((faultless_ref wf).mpr ⟨r, held⟩)

include wf in
theorem faultless_module {m : ModuleRef} {mr : ModuleRecord} (live : ctx.module m = .ok mr) :
    (module ctx m).Faultless ↔ ¬ctx.Dangles m := by
  obtain ⟨globals, numbered⟩ := globalSlots_reads wf live
  have blank : Faultless (if mr.globals.isEmpty then [] else [.text "\n"]) := by split <;> simp
  have lines : ∀ g ∈ mr.globals, (globalLine ctx { globals } g).Faultless := by
    intro g mem
    obtain ⟨gr, known, _⟩ := wf.module_global live mem
    exact faultless_globalLine wf known
  simp only [module, reading, numbered, live, List.cons_append, faultless_text, faultless_append,
    blank, true_and, faultless_flatMap, faultless_nil, and_true]
  rw [and_iff_right lines, not_dangles]
  constructor
  · rintro sound h ⟨i, r, f, fr, placed, known, home, mem⟩
    obtain ⟨mr', live', listed⟩ := wf.function_listed known
    rw [home, live] at live'
    obtain rfl := Except.ok.inj live'
    exact (faultless_functionLines wf known).mp (sound f listed) i r placed h mem
  · intro sound f listed
    obtain ⟨fr, known, home⟩ := wf.module_function live listed
    refine (faultless_functionLines wf known).mpr fun i r placed h mem => ?_
    exact sound h ⟨i, r, f, fr, placed, known, home, mem⟩

end Listing

namespace Context

variable {ctx : Context} {m : ModuleRef} {mr : ModuleRecord}

/-- A module has a text exactly when nothing in it dangles. -/
theorem moduleText_eq_ok (wf : ctx.WellFormed) (live : ctx.module m = .ok mr) :
    (∃ text, ctx.moduleText m = .ok text) ↔ ¬ctx.Dangles m :=
  Listing.render_eq_ok.trans (Listing.faultless_module wf live)

end Context
end ModuleIR
