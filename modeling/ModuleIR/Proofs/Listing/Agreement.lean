import ModuleIR.Listing.Modules
import ModuleIR.Proofs.Arena.Changes

set_option autoImplicit false

/-!
# What a listing depends on

A listing reads types, and the values and blocks that the listed entity refers to. Two contexts with
the same types give the same listing of an entity when a region that covers it reads alike in both.
-/
namespace ModuleIR

namespace Context

/-- Two contexts with the same types in which the values `V` and the blocks `B` read alike; the
operands of pointer arithmetic in the region are in the region. -/
structure AgreesOn (ctx ctx' : Context) (V : ValueRef → Prop) (B : BlockRef → Prop) : Prop where
  id : ctx'.id = ctx.id
  types : ctx'.types = ctx.types
  values : ∀ v, V v → ctx'.value v = ctx.value v
  blocks : ∀ b, B b → ctx'.block b = ctx.block b
  operands : ∀ v r e, V v → ctx.value v = .ok r → r.kind = .elementPtr e →
    V e.base ∧ ∀ u ∈ e.indices, V u

/-! ### Regions that cover what is listed -/

section Covers

variable (ctx : Context) (V : ValueRef → Prop) (B : BlockRef → Prop)

def CoversInstruction (i : InstructionRef) : Prop :=
  V i.value ∧ ∀ r, ctx.instruction i = .ok r →
    (∀ u ∈ r.operation.operands, V u) ∧ ∀ t ∈ r.operation.successors, B t

def CoversBlock (b : BlockRef) : Prop :=
  B b ∧ ∀ br, ctx.block b = .ok br → ∀ i ∈ br.instructions, ctx.CoversInstruction V B i

def CoversFunction (f : FunctionRef) : Prop :=
  V f.value ∧ ∀ fr, ctx.function f = .ok fr →
    (∀ a ∈ fr.args, V a.value) ∧ ∀ b ∈ fr.blocks, ctx.CoversBlock V B b

def CoversGlobal (g : GlobalRef) : Prop :=
  V g.value ∧ ∀ gr, ctx.global g = .ok gr → ∀ init ∈ gr.initializer, V init.value

def CoversModule (m : ModuleRef) : Prop :=
  ∀ mr, ctx.module m = .ok mr → (∀ g ∈ mr.globals, ctx.CoversGlobal V g) ∧
    ∀ f ∈ mr.functions, ctx.CoversFunction V B f

end Covers

variable {ctx ctx' : Context} {V : ValueRef → Prop} {B : BlockRef → Prop}

/-! ### Reads -/

namespace AgreesOn

variable (a : ctx.AgreesOn ctx' V B)
include a

theorem shape (t : TypeRef) : ctx'.shape t = ctx.shape t := shape_congr a.id a.types t

theorem describeType (t : TypeRef) : ctx'.describeType t = ctx.describeType t := by
  have within (depth : Nat) : ctx'.describeTypeWithin depth = ctx.describeTypeWithin depth := by
    induction depth with
    | zero => rfl
    | succ depth ih =>
      funext t
      simp only [describeTypeWithin, a.shape, ih]
  exact congrFun (within _) t

theorem signature (t : FunctionTypeRef) : ctx'.signature t = ctx.signature t := by
  simp only [Context.signature, a.shape]

theorem valueType {v : ValueRef} (inside : V v) : ctx'.valueType v = ctx.valueType v := by
  simp only [Context.valueType, a.values v inside]

theorem describeTypeOf {v : ValueRef} (inside : V v) :
    ctx'.describeTypeOf v = ctx.describeTypeOf v := by
  simp only [Context.describeTypeOf, a.valueType inside, a.describeType]

theorem valueName {v : ValueRef} (inside : V v) : ctx'.valueName v = ctx.valueName v := by
  simp only [Context.valueName, a.values v inside]

theorem global {g : GlobalRef} (inside : V g.value) : ctx'.global g = ctx.global g := by
  simp only [Context.global, a.values _ inside]

theorem function {f : FunctionRef} (inside : V f.value) : ctx'.function f = ctx.function f := by
  simp only [Context.function, a.values _ inside]

theorem operation {i : InstructionRef} (inside : V i.value) :
    ctx'.operation i = ctx.operation i := by
  simp only [Context.operation, Context.instruction, a.values _ inside]

theorem calleeSignature? {callee : ValueRef} (inside : V callee) :
    ctx'.calleeSignature? callee = ctx.calleeSignature? callee := by
  simp only [Context.calleeSignature?, a.valueType inside, a.shape]

/-! ### Numbers of unnamed entities -/

theorem unnamedValues {vs : List ValueRef} (inside : ∀ v ∈ vs, V v) :
    ctx'.unnamedValues vs = ctx.unnamedValues vs := by
  induction vs with
  | nil => rfl
  | cons v rest ih =>
    obtain ⟨first, others⟩ := List.forall_mem_cons.mp inside
    simp only [Context.unnamedValues, a.valueName first, ih others]

theorem instructionSlots {is : List InstructionRef} (inside : ∀ i ∈ is, V i.value) :
    ctx'.instructionSlots is = ctx.instructionSlots is := by
  induction is with
  | nil => rfl
  | cons i rest ih =>
    obtain ⟨first, others⟩ := List.forall_mem_cons.mp inside
    simp only [Context.instructionSlots, a.values _ first, a.shape, ih others]

theorem blockSlots {bs : List BlockRef} (covered : ∀ b ∈ bs, ctx.CoversBlock V B b) :
    ctx'.blockSlots bs = ctx.blockSlots bs := by
  induction bs with
  | nil => rfl
  | cons b rest ih =>
    obtain ⟨⟨first, body⟩, others⟩ := List.forall_mem_cons.mp covered
    simp only [Context.blockSlots, a.blocks b first, ih others]
    cases read : ctx.block b with
    | error violation => rfl
    | ok br =>
      simp only [Checked.ok_bind, a.instructionSlots fun i mem => (body br read i mem).1]

theorem localSlots {f : FunctionRef} (covered : ctx.CoversFunction V B f) :
    ctx'.localSlots f = ctx.localSlots f := by
  obtain ⟨self, parts⟩ := covered
  simp only [Context.localSlots, a.function self]
  cases known : ctx.function f with
  | error violation => rfl
  | ok fr =>
    obtain ⟨args, blocks⟩ := parts fr known
    have named : ctx'.unnamedValues (fr.args.map (·.value)) =
        ctx.unnamedValues (fr.args.map (·.value)) := a.unnamedValues (List.forall_mem_map.mpr args)
    simp only [Checked.ok_bind, a.blockSlots blocks, named]

theorem globalSlots {m : ModuleRef} (same : ctx'.module m = ctx.module m)
    (covered : ctx.CoversModule V B m) : ctx'.globalSlots m = ctx.globalSlots m := by
  simp only [Context.globalSlots, same]
  cases live : ctx.module m with
  | error violation => rfl
  | ok mr =>
    obtain ⟨globals, functions⟩ := covered mr live
    refine a.unnamedValues (List.forall_mem_append.mpr ⟨?_, ?_⟩)
    · exact List.forall_mem_map.mpr fun g mem => (globals g mem).1
    · exact List.forall_mem_map.mpr fun f mem => (functions f mem).1

end AgreesOn
end Context

/-! ### Listings -/

namespace Listing

open Context

variable {ctx ctx' : Context} {V : ValueRef → Prop} {B : BlockRef → Prop}

theorem reading_congr {α : Type} {read read' : Checked α} {next next' : α → Listing}
    (same : read' = read) (alike : ∀ a, read = .ok a → next' a = next a) :
    reading read' next' = reading read next := by
  subst same
  cases result : read' with
  | error violation => rfl
  | ok a => exact alike a result

theorem flatMap_congr {α : Type} {next next' : α → Listing} {as : List α}
    (alike : ∀ a ∈ as, next' a = next a) : as.flatMap next' = as.flatMap next := by
  rw [List.flatMap_def, List.flatMap_def, List.map_congr_left alike]

variable (a : ctx.AgreesOn ctx' V B) {slots : Slots}
include a

theorem refWithin_agree {depth : Nat} {v : ValueRef} (inside : V v) :
    refWithin ctx' slots depth v = refWithin ctx slots depth v := by
  induction depth generalizing v with
  | zero => rfl
  | succ depth ih =>
    rw [refWithin, refWithin]
    refine reading_congr (a.values v inside) fun r read => ?_
    cases kind : r.kind with
    | elementPtr e =>
      obtain ⟨base, indices⟩ := a.operands v r e inside read kind
      have inner {u : ValueRef} (used : V u) :
          (reading (ctx'.describeTypeOf u) fun type =>
            .text (type ++ " ") :: refWithin ctx' slots depth u) =
          reading (ctx.describeTypeOf u) fun type =>
            .text (type ++ " ") :: refWithin ctx slots depth u :=
        reading_congr (a.describeTypeOf used) fun type _ => by rw [ih used]
      dsimp only
      rw [inner base, a.describeType,
        flatMap_congr fun u mem => congrArg (Piece.text ", " :: ·) (inner (indices u mem))]
    | _ => rfl

theorem ref_agree {v : ValueRef} (inside : V v) : ref ctx' slots v = ref ctx slots v :=
  refWithin_agree a inside

theorem operand_agree {v : ValueRef} (inside : V v) : operand ctx' slots v = operand ctx slots v :=
  reading_congr (a.describeTypeOf inside) fun _ _ => by rw [ref_agree a inside]

theorem blockRef_agree {b : BlockRef} (inside : B b) :
    blockRef ctx' slots b = blockRef ctx slots b := by
  rw [blockRef, blockRef, a.blocks b inside]

theorem operation_agree {type : TypeRef} {o : Operation} (operands : ∀ u ∈ o.operands, V u)
    (targets : ∀ t ∈ o.successors, B t) :
    operation ctx' slots type o = operation ctx slots type o := by
  cases o with
  | call callee args convention =>
    have used : V callee := operands callee (by simp [Operation.operands])
    have called : calledTypeText ctx' callee type = calledTypeText ctx callee type := by
      simp only [calledTypeText, a.calleeSignature? used, a.signature, a.describeTypeOf used,
        a.describeType]
    have listed : args.map (operand ctx' slots) = args.map (operand ctx slots) :=
      List.map_congr_left fun u mem =>
        operand_agree a (operands u (by simp [Operation.operands, mem]))
    simp only [operation, called, ref_agree a used, listed]
  | ret value =>
    cases value with
    | none => rfl
    | some v => rw [operation, operation, operand_agree a (operands v List.mem_cons_self)]
  | br target => rw [operation, operation, blockRef_agree a (targets target List.mem_cons_self)]
  | condBr cond ifTrue ifFalse =>
    rw [operation, operation, operand_agree a (operands cond List.mem_cons_self),
      blockRef_agree a (targets ifTrue (by simp [Operation.successors])),
      blockRef_agree a (targets ifFalse (by simp [Operation.successors]))]

theorem instruction_agree {i : InstructionRef} (covered : ctx.CoversInstruction V B i) :
    instruction ctx' slots i = instruction ctx slots i := by
  obtain ⟨self, references⟩ := covered
  refine reading_congr (a.values _ self) fun record _ => ?_
  refine reading_congr (a.shape _) fun shape _ => ?_
  rw [ref_agree a self]
  congr 1
  refine reading_congr (a.operation self) fun o known => ?_
  obtain ⟨r, made, rfl⟩ := operation_eq_ok.mp known
  exact operation_agree a (references r made).1 (references r made).2

theorem blockLines_agree {first : Bool} {b : BlockRef} (covered : ctx.CoversBlock V B b) :
    blockLines ctx' slots first b = blockLines ctx slots first b := by
  obtain ⟨self, body⟩ := covered
  unfold blockLines
  congr 1
  refine reading_congr (a.blocks b self) fun br read => ?_
  congr 1
  exact flatMap_congr fun i mem => by rw [instruction_agree a (body br read i mem)]

theorem functionLines_agree {globals : List ValueRef} {f : FunctionRef}
    (covered : ctx.CoversFunction V B f) :
    functionLines ctx' globals f = functionLines ctx globals f := by
  refine reading_congr (a.localSlots covered) fun locals _ => ?_
  obtain ⟨self, parts⟩ := covered
  refine reading_congr (a.function self) fun fr known => ?_
  obtain ⟨args, blocks⟩ := parts fr known
  have parameters {slots : Slots} {declared : Bool} :
      fr.args.map (parameter ctx' slots declared) = fr.args.map (parameter ctx slots declared) := by
    refine List.map_congr_left fun arg mem => ?_
    simp only [parameter, a.describeTypeOf (args arg mem), operand_agree a (args arg mem)]
  have body {slots : Slots} :
      bodyLines ctx' slots fr.blocks = bodyLines ctx slots fr.blocks := by
    cases listed : fr.blocks with
    | nil => rfl
    | cons b rest =>
      obtain ⟨head, tail⟩ := List.forall_mem_cons.mp (listed ▸ blocks)
      rw [bodyLines, bodyLines, blockLines_agree a head,
        flatMap_congr fun c mem => blockLines_agree a (tail c mem)]
  refine reading_congr (a.signature _) fun signature _ => ?_
  simp only [a.describeType, ref_agree a self, parameters, body]

theorem globalLine_agree {g : GlobalRef} (covered : ctx.CoversGlobal V g) :
    globalLine ctx' slots g = globalLine ctx slots g := by
  obtain ⟨self, initializer⟩ := covered
  unfold globalLine
  rw [ref_agree a self]
  congr 1
  refine reading_congr (a.global self) fun gr known => ?_
  rw [a.describeType]
  cases given : gr.initializer with
  | none => rfl
  | some init => simp only [ref_agree a (initializer gr known init given)]

theorem module_agree {m : ModuleRef} (same : ctx'.module m = ctx.module m)
    (covered : ctx.CoversModule V B m) : module ctx' m = module ctx m := by
  refine reading_congr (a.globalSlots same covered) fun globals _ => ?_
  refine reading_congr same fun mr live => ?_
  obtain ⟨globals', functions⟩ := covered mr live
  rw [flatMap_congr fun g mem =>
      congrArg (· ++ [Piece.text "\n"]) (globalLine_agree a (globals' g mem)),
    flatMap_congr fun f mem =>
      congrArg (Piece.text "\n" :: ·) (functionLines_agree a (functions f mem))]

end Listing

namespace Context

/-- The text of a module depends on the region that covers it. -/
theorem AgreesOn.moduleText {ctx ctx' : Context} {V : ValueRef → Prop} {B : BlockRef → Prop}
    (a : ctx.AgreesOn ctx' V B) {m : ModuleRef} (same : ctx'.module m = ctx.module m)
    (covered : ctx.CoversModule V B m) : ctx'.moduleText m = ctx.moduleText m :=
  congrArg Listing.render (Listing.module_agree a same covered)

end Context
end ModuleIR
