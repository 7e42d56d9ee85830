import ModuleIR.Listing.Modules
import ModuleIR.Proofs.Names.Settling
import ModuleIR.Proofs.World.Reachable
import ModuleIR.Verify.Defects

set_option autoImplicit false

/-!
# Detached blocks

A block can be filled inside its function, where each name is entered as it is given, or detached,
where names are entered when the block is inserted. The one run follows the other: after every
instruction, what was made in place is what was made apart with the block settled. So both end in
the same context.
-/
namespace ModuleIR

/-- An instruction that is yet to be made. -/
inductive Draft where
  | call (callee : ValueRef) (args : List ValueRef) (name : String)
  | ret (value : Option ValueRef)
  | br (target : BlockRef)
  | condBr (cond : ValueRef) (ifTrue ifFalse : BlockRef)
  deriving DecidableEq, Repr

namespace Draft

def operation : Draft → Operation
  | call callee args _ => .call callee args .c
  | ret value => .ret value
  | br target => .br target
  | condBr cond ifTrue ifFalse => .condBr cond ifTrue ifFalse

def name : Draft → String
  | call _ _ name => name
  | _ => ""

def make (b : BlockRef) : Draft → Build InstructionRef
  | call callee args name => do return (← Build.createCall callee args name b).toInstruction
  | ret value => do return (← Build.createReturn value b).toInstruction
  | br target => do return (← Build.createBranch target b).toInstruction
  | condBr cond ifTrue ifFalse => do
    return (← Build.createCondBranch cond ifTrue ifFalse b).toInstruction

end Draft

/-- The instructions of a block, each of which may use the block and those ahead of it. -/
abbrev Body : Type := List (BlockRef → List InstructionRef → Draft)

namespace Build

def fill (b : BlockRef) : Body → List InstructionRef → Build (List InstructionRef)
  | [], made => return made
  | draft :: rest, made => do
    let i ← (draft b made).make b
    fill b rest (made ++ [i])

def fillInPlace (name : String) (f : FunctionRef) (before : Option BlockRef) (body : Body) :
    Build (BlockRef × List InstructionRef) := do
  let b ← createBlock name (some f) before
  return (b, ← fill b body [])

def fillDetached (name : String) (f : FunctionRef) (before : Option BlockRef) (body : Body) :
    Build (BlockRef × List InstructionRef) := do
  let b ← createBlock name none none
  let made ← fill b body []
  insertBlock b f before
  return (b, made)

end Build

namespace Context

variable {ctx ctx' mid mid' : Context} {t t' : TypeRef}

def TypesDraft (ctx : Context) (t : TypeRef) (mid : Context) : Draft → Prop
  | .call callee _ _ => mid = ctx ∧ ∃ r signature space params variadic, ctx.value callee = .ok r ∧
      ctx.shape r.type = .ok (.pointer signature space) ∧
      ctx.shape signature = .ok (.function t params variadic)
  | _ => ctx.internType .void = (t, mid)

theorem internType_congr (same : ctx.KeepsArenas ctx') (shape : Shape) :
    ctx'.internType shape = ((ctx.internType shape).1, { ctx' with
      types := (ctx.internType shape).2.types
      typeTable := (ctx.internType shape).2.typeTable }) := by
  obtain ⟨id, types, typeTable, _⟩ := same
  simp only [internType, id, types, typeTable]
  cases ctx.typeTable.find? shape with
  | some known => simp only [← id, ← types, ← typeTable]
  | none => rfl

theorem TypesDraft.agree {draft : Draft} (growth : ctx.Grows ctx') (same : ctx.KeepsArenas ctx')
    (typed : ctx.TypesDraft t mid draft) (typed' : ctx'.TypesDraft t' mid' draft) :
    t' = t ∧ ∃ types typeTable, mid = { ctx with types, typeTable } ∧
      mid' = { ctx' with types, typeTable } := by
  cases draft with
  | call callee args name =>
    obtain ⟨rfl, r, signature, space, params, variadic, read, pointed, signed⟩ := typed
    obtain ⟨rfl, r', signature', space', params', variadic', read', pointed', signed'⟩ := typed'
    obtain ⟨again, held, type, _⟩ := growth.value read
    obtain rfl := Checked.unique read' held
    obtain ⟨rfl, _⟩ := Shape.pointer.inj (Checked.unique pointed' (growth.shape (type ▸ pointed)))
    obtain ⟨rfl, _⟩ := Shape.function.inj (Checked.unique signed' (growth.shape signed))
    exact ⟨rfl, _, _, rfl, by rw [← same.types, ← same.typeTable]⟩
  | ret | br | condBr =>
    have void : ctx.internType .void = (t, mid) := typed
    have void' : ctx'.internType .void = (t', mid') := typed'
    have own := internType_congr (refl_of KeepsArenas ctx) .void
    have other := internType_congr same .void
    rw [void] at own other
    rw [void'] at other
    exact ⟨(Prod.mk.inj other).1, _, _, (Prod.mk.inj own).2, (Prod.mk.inj other).2⟩

end Context

namespace Build

open Context

variable {ctx ctx' mid mid' : Context} {b : BlockRef} {f : FunctionRef} {position : Nat}

theorem make_parts {draft : Draft} {i : InstructionRef}
    (run : (draft.make b ctx).result = .ok (i, ctx')) :
    ∃ t mid, ctx.TypesDraft t mid draft ∧
      (append b t draft.operation draft.name mid).result = .ok (i, ctx') := by
  cases draft with
  | call callee args name =>
    simp only [Draft.make, createCall, bind_eq_ok, read_eq_ok, pure_eq_ok] at run
    obtain ⟨c, _, ⟨signature, _, ⟨called, rfl⟩, _, _, ⟨_, rfl⟩, _, _, ⟨_, rfl⟩,
      ⟨result, params, variadic⟩, _, ⟨signed, rfl⟩, _, _, appended, rfl, rfl⟩, rfl, rfl⟩ := run
    obtain ⟨r, space, _, _, _, read, pointed, _⟩ :=
      calleeSignature?_eq_some.mp (checkCall_parts called).1
    exact ⟨result, ctx, ⟨rfl, r, _, space, params, variadic, read, pointed,
      signature_eq_ok.mp signed⟩, appended⟩
  | ret value =>
    simp only [Draft.make, createReturn, bind_eq_ok, read_eq_ok, pure_eq_ok] at run
    obtain ⟨c, _, ⟨_, _, ⟨_, rfl⟩, run⟩, rfl, rfl⟩ := run
    cases value with
    | none =>
      simp only [voidType, internType, bind_eq_ok, read_eq_ok, update_eq_ok, pure_eq_ok] at run
      obtain ⟨t, mid, ⟨_, _, ⟨_, rfl⟩, interned⟩, _, _, appended, rfl, rfl⟩ := run
      exact ⟨t, mid, interned, appended⟩
    | some v =>
      simp only [voidType, internType, bind_eq_ok, read_eq_ok, update_eq_ok, pure_eq_ok] at run
      obtain ⟨_, _, ⟨_, rfl⟩, t, mid, ⟨_, _, ⟨_, rfl⟩, interned⟩, _, _, appended, rfl, rfl⟩ := run
      exact ⟨t, mid, interned, appended⟩
  | br target =>
    simp only [Draft.make, createBranch, voidType, internType, bind_eq_ok, read_eq_ok, update_eq_ok,
      pure_eq_ok] at run
    obtain ⟨c, _, ⟨t, mid, ⟨_, _, ⟨_, rfl⟩, interned⟩, _, _, appended, rfl, rfl⟩, rfl, rfl⟩ := run
    exact ⟨t, mid, interned, appended⟩
  | condBr cond ifTrue ifFalse =>
    simp only [Draft.make, createCondBranch, voidType, internType, bind_eq_ok, read_eq_ok,
      update_eq_ok, pure_eq_ok] at run
    obtain ⟨c, _, ⟨_, _, ⟨_, rfl⟩, _, _, ⟨_, rfl⟩, t, mid, ⟨_, _, ⟨_, rfl⟩, interned⟩, _, _,
      appended, rfl, rfl⟩, rfl, rfl⟩ := run
    exact ⟨t, mid, interned, appended⟩

theorem nameScope_addInstruction {t : TypeRef} {o : Operation} {br : BlockRecord}
    (read : ctx.block b = .ok br) :
    (ctx.addInstruction b t o).nameScope ⟨ctx.id, ctx.values.size⟩ = .ok br.nameScope := by
  refine Checked.bind_eq_ok.mpr ⟨_, value_addInstruction, ?_⟩
  refine Checked.bind_eq_ok.mpr ⟨_, block_addInstruction read, ?_⟩
  unfold BlockRecord.nameScope
  cases br.parent <;> rfl

theorem setValueName_addInstruction {t : TypeRef} {o : Operation} {name : Option String} :
    (ctx.addInstruction b t o).setValueName ⟨ctx.id, ctx.values.size⟩ name =
      ctx.extend ctx.types ctx.typeTable b { type := t, name, kind := .instruction ⟨b, o⟩ } :=
  congrArg (fun values => { ctx.addInstruction b t o with values }) modify_push_last

theorem append_binds {t : TypeRef} {operation : Operation} {name : String} {i : InstructionRef}
    {br : BlockRecord} (read : ctx.block b = .ok br)
    (run : (append b t operation name ctx).result = .ok (i, ctx')) :
    i = ⟨⟨ctx.id, ctx.values.size⟩⟩ ∧
      ((name.isEmpty = true ∧ ctx.addInstruction b t operation = ctx') ∨
        (name.isEmpty = false ∧ ∃ bound mid, mid.setValueName i.value bound = ctx' ∧
          (bindIn br.nameScope none name (.value i.value)
            (ctx.addInstruction b t operation)).result = .ok (bound, mid))) := by
  obtain ⟨_, rfl, last⟩ := append_parts run
  refine ⟨rfl, last.imp_right fun ⟨filled, named⟩ => ⟨filled, ?_⟩⟩
  obtain ⟨scope, record, bound, mid, home, held, entered, rfl⟩ := setValueName_parts named
  obtain rfl := Checked.unique value_addInstruction held
  obtain rfl : br.nameScope = scope := by
    have home' := nameScope_addInstruction (t := t) (o := operation) read
    exact Checked.unique home' home
  exact ⟨bound, mid, rfl, entered⟩

theorem append_detached {t : TypeRef} {operation : Operation} {name : String} {i : InstructionRef}
    {br : BlockRecord} (read : ctx.block b = .ok br) (loose : br.parent = none)
    (run : (append b t operation name ctx).result = .ok (i, ctx')) :
    i = ⟨⟨ctx.id, ctx.values.size⟩⟩ ∧ ctx' = ctx.extend ctx.types ctx.typeTable b
      { type := t, name := looseName name, kind := .instruction ⟨b, operation⟩ } := by
  obtain ⟨rfl, ⟨empty, rfl⟩ | ⟨filled, bound, mid, rfl, entered⟩⟩ := append_binds read run
  · rw [looseName, if_pos empty]
    exact ⟨rfl, rfl⟩
  · rw [BlockRecord.nameScope, loose] at entered
    obtain ⟨rfl, rfl⟩ := pure_eq_ok.mp entered
    exact ⟨rfl, setValueName_addInstruction⟩

theorem append_placed {t : TypeRef} {operation : Operation} {name : String} {i : InstructionRef}
    {br : BlockRecord} (read : ctx.block b = .ok br) (placed : br.parent = some f)
    (run : (append b t operation name ctx).result = .ok (i, ctx')) :
    i = ⟨⟨ctx.id, ctx.values.size⟩⟩ ∧
      (adoptNames f [⟨⟨ctx.id, ctx.values.size⟩⟩] (ctx.extend ctx.types ctx.typeTable b
        { type := t, name := looseName name, kind := .instruction ⟨b, operation⟩ })).result =
          .ok ((), ctx') := by
  obtain ⟨rfl, ⟨empty, rfl⟩ | ⟨filled, bound, mid, rfl, entered⟩⟩ := append_binds read run
  · rw [looseName, if_pos empty]
    have unnamed : (ctx.addInstruction b t operation).valueName ⟨ctx.id, ctx.values.size⟩ =
        .ok none := valueName_eq_ok.mpr ⟨_, value_addInstruction, rfl⟩
    refine ⟨rfl, bind_eq_ok.mpr ⟨none, _, read_eq_ok.mpr ⟨unnamed, rfl⟩, ?_⟩⟩
    exact pure_eq_ok.mpr ⟨rfl, rfl⟩
  · rw [BlockRecord.nameScope, placed] at entered
    have called : (ctx.extend ctx.types ctx.typeTable b
        { type := t, name := some name, kind := .instruction ⟨b, operation⟩ }).valueName
          ⟨ctx.id, ctx.values.size⟩ = .ok (some name) :=
      valueName_eq_ok.mpr ⟨_, value_extend_last (by simp), rfl⟩
    rw [← setValueName_addInstruction] at called
    rw [looseName, if_neg (by simp [filled]), ← setValueName_addInstruction]
    refine ⟨rfl, bind_eq_ok.mpr ⟨some name, _, read_eq_ok.mpr ⟨called, rfl⟩, ?_⟩⟩
    refine bind_eq_ok.mpr ⟨bound, _, rebindInFunction_renamed entered, ?_⟩
    refine bind_eq_ok.mpr ⟨(), _, change_eq_ok.mpr rfl, pure_eq_ok.mpr ⟨rfl, ?_⟩⟩
    exact setValueName_setValueName

variable {fr : FunctionRecord}

/-- What is appended in place is what is appended apart, with the block settled. -/
theorem make_settles {draft : Draft} {i j : InstructionRef} {apart inPlace : Context}
    {br : BlockRecord} (read : ctx.block b = .ok br) (loose : br.parent = none)
    (known : ctx.function f = .ok fr) (settles : ctx.SettlesBlock b f position mid)
    (made : (draft.make b ctx).result = .ok (i, apart))
    (made' : (draft.make b mid).result = .ok (j, inPlace)) :
    j = i ∧ apart.SettlesBlock b f position inPlace ∧
      (∃ br', apart.block b = .ok br' ∧ br'.parent = none) ∧ apart.function f = .ok fr := by
  obtain ⟨t, _, typed, appended⟩ := make_parts made
  obtain ⟨t', _, typed', appended'⟩ := make_parts made'
  have same := settles.keepsArenas
  obtain ⟨rfl, types, typeTable, rfl, rfl⟩ :=
    typed.agree (settles.grows read loose known) same typed'
  obtain ⟨held, placed, parent⟩ := settles.placed read loose known
  have read' : ({ ctx with types, typeTable } : Context).block b = .ok br :=
    (block_congr rfl rfl b).trans read
  have placed' : ({ mid with types, typeTable } : Context).block b = .ok held :=
    (block_congr rfl rfl b).trans placed
  obtain ⟨rfl, rfl⟩ := append_detached read' loose appended
  obtain ⟨rfl, entered⟩ := append_placed placed' parent appended'
  have settled := settles.extend (index_lt_of_function known) entered
  refine ⟨?_, settled, ⟨_, block_extend read, loose⟩, function_extend known⟩
  rw [same.id, same.size]

/-- Filling in place follows filling apart, instruction by instruction. -/
theorem fill_settles {body : Body} {made is js : List InstructionRef} {apart inPlace : Context}
    {br : BlockRecord} (read : ctx.block b = .ok br) (loose : br.parent = none)
    (known : ctx.function f = .ok fr) (settles : ctx.SettlesBlock b f position mid)
    (filled : (fill b body made ctx).result = .ok (is, apart))
    (filled' : (fill b body made mid).result = .ok (js, inPlace)) :
    js = is ∧ apart.SettlesBlock b f position inPlace ∧
      (∃ br', apart.block b = .ok br' ∧ br'.parent = none) ∧ apart.function f = .ok fr := by
  induction body generalizing ctx mid made br with
  | nil =>
    obtain ⟨rfl, rfl⟩ := pure_eq_ok.mp filled
    obtain ⟨rfl, rfl⟩ := pure_eq_ok.mp filled'
    exact ⟨rfl, settles, ⟨br, read, loose⟩, known⟩
  | cons draft rest ih =>
    obtain ⟨i, ctx₁, first, last⟩ := bind_eq_ok.mp filled
    obtain ⟨j, mid₁, first', last'⟩ := bind_eq_ok.mp filled'
    obtain ⟨rfl, settles₁, ⟨br₁, read₁, loose₁⟩, known₁⟩ :=
      make_settles read loose known settles first first'
    exact ih read₁ loose₁ known₁ settles₁ last last'

theorem insertBlock_settles {before : Option BlockRef} {u : Unit}
    (run : (insertBlock b f before ctx).result = .ok (u, ctx')) :
    ∃ fr position, ctx.function f = .ok fr ∧ ctx.blockPosition f before = .ok position ∧
      ctx.SettlesBlock b f position ctx' := by
  obtain ⟨_, fr, position, mid, br, _, _, known, found, _, _, entered, read, adopted⟩ :=
    insertBlock_parts run
  exact ⟨fr, position, known, found, mid, br, entered, read, adopted⟩

theorem blockPosition_congr {before : Option BlockRef} {position' : Nat}
    (known : ctx.function f = .ok fr) (known' : ctx'.function f = .ok fr)
    (found : ctx.blockPosition f before = .ok position)
    (found' : ctx'.blockPosition f before = .ok position') : position' = position := by
  simp only [blockPosition, known, known', Checked.ok_bind] at found found'
  cases before with
  | none => exact (Except.ok.inj found').symm.trans (Except.ok.inj found)
  | some sibling =>
    cases place : fr.blocks.idxOf? sibling with
    | none =>
      simp only [place] at found
      obtain ⟨_, _, impossible⟩ := Checked.bind_eq_ok.mp found
      cases impossible
    | some i =>
      simp only [place] at found found'
      exact (Except.ok.inj found').symm.trans (Except.ok.inj found)

/-- Whether a block is filled inside its function, or detached and inserted then, the handles are
the same, and so is the context in the end, with all its names and counters; hence also what is
printed and what the verifier says. -/
theorem filled_apart_as_in_place {name : String} {before : Option BlockRef} {body : Body}
    {made made' : BlockRef × List InstructionRef} {inPlace apart : Context}
    (run : (fillInPlace name f before body ctx).result = .ok (made, inPlace))
    (run' : (fillDetached name f before body ctx).result = .ok (made', apart)) :
    made' = made ∧ apart = inPlace ∧ ∀ m, apart.moduleText m = inPlace.moduleText m ∧
      apart.verifyModule m = inPlace.verifyModule m := by
  simp only [fillInPlace, fillDetached, createBlock, bind_eq_ok, update_eq_ok, require_eq_ok,
    pure_eq_ok] at run run'
  obtain ⟨b, placed, ⟨_, fresh, pushed, _, _, inserted, rfl, rfl⟩, is, _, filled, rfl, rfl⟩ := run
  obtain ⟨b', _, ⟨_, fresh', pushed', _, _, ⟨_, rfl⟩, rfl, rfl⟩, js, filledApart, filled', _, _,
    inserted', rfl, rfl⟩ := run'
  obtain ⟨rfl, rfl⟩ := Prod.mk.inj pushed
  obtain ⟨rfl, rfl⟩ := Prod.mk.inj pushed'
  have read : ({ ctx with blocks := ctx.blocks.push { name := looseName name } } : Context).block
      ⟨ctx.id, ctx.blocks.size⟩ = .ok { name := looseName name } :=
    block_eq_ok.mpr ⟨rfl, Array.getElem?_push_size, rfl⟩
  obtain ⟨fr, position, known, found, settles⟩ := insertBlock_settles inserted
  obtain ⟨rfl, settles', _, known'⟩ := fill_settles read rfl known settles filled' filled
  obtain ⟨_, position', known'', found', settles''⟩ := insertBlock_settles inserted'
  obtain rfl := Checked.unique known' known''
  obtain rfl := blockPosition_congr known known' found found'
  obtain rfl := settles''.unique settles'
  exact ⟨rfl, rfl, fun _ => ⟨rfl, rfl⟩⟩

def oneBlock : World := .after [.context, .request 0 (.integerType 32),
  .upcast (.type .any ⟨⟨1⟩, 0⟩), .request 0 (.functionType ⟨⟨1⟩, 0⟩ [⟨⟨1⟩, 0⟩] false),
  .request 0 (.createModule "m"),
  .request 0 (.createFunction ⟨⟨⟨1⟩, 1⟩⟩ .external "f" ⟨⟨1⟩, 0⟩),
  .request 0 (.createBlock "entry" (some ⟨⟨⟨1⟩, 0⟩⟩) none)]

/-- Two calls of the same name, of which the second is given what the first returns. -/
def twoCalls : Body := [fun _ _ => .call ⟨⟨1⟩, 0⟩ [⟨⟨1⟩, 1⟩] "entry",
  fun _ made => .call ⟨⟨1⟩, 0⟩ (made.map (·.value)) "entry",
  fun _ made => .ret (made.getLast?.map (·.value))]

theorem twoCalls_apart : ∃ ctx ∈ oneBlock.contexts, ∃ made ctx',
    (fillInPlace "entry" ⟨⟨⟨1⟩, 0⟩⟩ (some ⟨⟨1⟩, 0⟩) twoCalls ctx).result = .ok (made, ctx') ∧
    (fillDetached "entry" ⟨⟨⟨1⟩, 0⟩⟩ (some ⟨⟨1⟩, 0⟩) twoCalls ctx).result = .ok (made, ctx') ∧
    (ctx'.block made.1).map (·.name) = .ok (some "entry1") ∧
    made.2.map (fun i => ctx'.valueName i.value) =
      [.ok (some "entry2"), .ok (some "entry3"), .ok none] := by
  have computed : (oneBlock.contexts[0]?).any (fun ctx : Context =>
      (fillInPlace "entry" ⟨⟨⟨1⟩, 0⟩⟩ (some ⟨⟨1⟩, 0⟩) twoCalls ctx).result.toOption.any (fun out =>
        (out.2.block out.1.1).map (·.name) = .ok (some "entry1") ∧
          out.1.2.map (fun i => out.2.valueName i.value) =
            [.ok (some "entry2"), .ok (some "entry3"), .ok none]) ∧
      (fillDetached "entry" ⟨⟨⟨1⟩, 0⟩⟩ (some ⟨⟨1⟩, 0⟩) twoCalls ctx).result.toOption.isSome) =
        true := by decide +kernel
  obtain ⟨ctx, found, computed⟩ := (Option.any_eq_true _ _).mp computed
  obtain ⟨inPlace, apart⟩ := of_decide_eq_true computed
  obtain ⟨⟨made, ctx'⟩, success, named⟩ := (Option.any_eq_true _ _).mp inPlace
  obtain ⟨⟨made', last⟩, success'⟩ := Option.isSome_iff_exists.mp apart
  have run := Checked.toOption_eq_some.mp success
  have run' := Checked.toOption_eq_some.mp success'
  obtain ⟨rfl, rfl, _⟩ := filled_apart_as_in_place run run'
  obtain ⟨block, values⟩ := of_decide_eq_true named
  exact ⟨ctx, List.mem_of_getElem? found, _, _, run, run', block, values⟩

end Build
end ModuleIR
