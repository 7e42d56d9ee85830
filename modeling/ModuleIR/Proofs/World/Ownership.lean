import ModuleIR.Proofs.World.Reachable

set_option autoImplicit false

/-!
# Handles of other contexts

A handle that is stored is looked up first, by which a handle of another context is found out. Two
kinds of handle are stored without that: the targets of branches, and what is returned from a
detached block. Nothing else that a context records is ever of another context, and those two are
taken whatever context they are of.
-/
namespace ModuleIR

namespace Context

/-- The handles in the arenas and the tables of a context. -/
inductive Records (ctx : Context) : Handle → Prop
  | innerType {k : Nat} {shape : Shape} {t : TypeRef} (stored : ctx.types[k]? = some shape)
      (mem : t ∈ shape.inner) : Records ctx (.type .any t)
  | tabledType {shape : Shape} {t u : TypeRef} (stored : ctx.typeTable.find? shape = some t)
      (mem : u ∈ t :: shape.inner) : Records ctx (.type .any u)
  | valueType {k : Nat} {r : ValueRecord} (stored : ctx.values[k]? = some r) :
      Records ctx (.type .any r.type)
  | content {k : Nat} {r : ValueRecord} {h : Handle} (stored : ctx.values[k]? = some r)
      (mem : h ∈ r.kind.handles) : Records ctx h
  | blockContent {k : Nat} {r : BlockRecord} {h : Handle} (stored : ctx.blocks[k]? = some r)
      (mem : h ∈ r.handles) : Records ctx h
  | moduleContent {k : Nat} {r : ModuleRecord} {h : Handle}
      (stored : ctx.modules[k]? = some (some r)) (mem : h ∈ r.handles) : Records ctx h
  | tabledConstant {key : ConstantKey} {v : ValueRef}
      (stored : (key, v) ∈ ctx.constantTable.entries) : Records ctx (.value .any v)
  | keyOperand {base u v : ValueRef} {indices : List ValueRef} {inBounds : Bool}
      (stored : (.elementPtr base indices inBounds, v) ∈ ctx.constantTable.entries)
      (mem : u ∈ base :: indices) : Records ctx (.value .any u)

/-- A handle that was stored without being looked up: the target of a branch, or what is returned
from a block that is detached. -/
def Unlooked (ctx : Context) (h : Handle) : Prop :=
  ∃ i r, ctx.instruction i = .ok r ∧
    ((∃ target ∈ r.operation.successors, h = .block target) ∨
      ∃ u br, r.operation = .ret (some u) ∧ h = .value .any u ∧ ctx.block r.parent = .ok br ∧
        br.parent = none)

variable {ctx ctx' : Context}

theorem WellFormed.reference_owned (wf : ctx.WellFormed) {i : InstructionRef}
    {r : InstructionRecord} {h : Handle} (made : ctx.instruction i = .ok r)
    (mem : h ∈ r.operation.handles) : h.owner = ctx.id ∨ ctx.Unlooked h := by
  rcases List.mem_append.mp mem with operand | target
  · obtain ⟨u, inside, rfl⟩ := List.mem_map.mp operand
    rcases wf.operands i r made u inside with own | ⟨returned, br, placed, loose⟩
    · exact .inl own
    · exact .inr ⟨i, r, made, .inr ⟨u, br, returned, rfl, placed, loose⟩⟩
  · obtain ⟨t, inside, rfl⟩ := List.mem_map.mp target
    exact .inr ⟨i, r, made, .inl ⟨t, inside, rfl⟩⟩

theorem hasType_owner {t : TypeRef} (h : ctx.HasType t) : t.ctx = ctx.id := by
  obtain ⟨shape, read⟩ := h
  exact (shape_eq_ok.mp read).1

/-- Every recorded handle is of the context, but for what was not looked up. -/
theorem WellFormed.record_owned (wf : ctx.WellFormed) {h : Handle} (recorded : ctx.Records h) :
    h.owner = ctx.id ∨ ctx.Unlooked h := by
  cases recorded with
  | innerType stored mem => exact .inl (wf.inner _ _ stored _ mem).1
  | @tabledType shape t u stored mem =>
    have read := (wf.typeTable shape t).mp stored
    rcases List.mem_cons.mp mem with rfl | inside
    · exact .inl (shape_eq_ok.mp read).1
    · exact .inl (hasType_owner (wf.hasType_inner read inside))
  | valueType stored => exact .inl (hasType_owner (wf.values _ _ stored).type)
  | @content k r h stored mem =>
    have live : r.kind ≠ .erased := by
      intro erased
      rw [erased] at mem
      cases mem
    have read : ctx.value ⟨ctx.id, k⟩ = .ok r := value_eq_ok.mpr ⟨rfl, stored, live⟩
    rcases World.Sound.holds_content wf read mem with held | ⟨i, kind, inside⟩
    · exact .inl held.1
    · exact wf.reference_owned (i := ⟨⟨ctx.id, k⟩⟩) (instruction_eq_ok.mpr ⟨r, read, kind⟩) inside
  | @blockContent k r h stored mem =>
    have sound := wf.blocks k r stored
    simp only [BlockRecord.handles, List.mem_append, List.mem_map, Option.mem_toList] at mem
    rcases mem with ⟨f, parent, rfl⟩ | ⟨i, listed, rfl⟩
    · exact .inl (sound.owner f parent)
    · obtain ⟨ir, made, _⟩ := sound.instructions i listed
      obtain ⟨record, read, _⟩ := instruction_eq_ok.mp made
      exact .inl (value_eq_ok.mp read).1
  | @moduleContent k r h stored mem =>
    have sound := wf.modules k r stored
    simp only [ModuleRecord.handles, List.mem_append, List.mem_map] at mem
    rcases mem with (⟨g, listed, rfl⟩ | ⟨f, listed, rfl⟩) | named
    · obtain ⟨gr, known, _⟩ := sound.globals g listed
      obtain ⟨record, read, _⟩ := global_eq_ok.mp known
      exact .inl (value_eq_ok.mp read).1
    · obtain ⟨fr, known, _⟩ := sound.functions f listed
      obtain ⟨record, read, _⟩ := function_eq_ok.mp known
      exact .inl (value_eq_ok.mp read).1
    · exact .inl (sound.names h named).1
  | @tabledConstant key v stored =>
    obtain ⟨r, read, _⟩ := wf.constants key v stored
    exact .inl (value_eq_ok.mp read).1
  | @keyOperand base u v indices inBounds stored mem =>
    obtain ⟨r, read, key?⟩ := wf.constants _ v stored
    cases kind : r.kind with
    | elementPtr e =>
      rw [kind] at key?
      obtain ⟨rfl, rfl, rfl⟩ : e.base = base ∧ e.indices = indices ∧ e.inBounds = inBounds := by
        simpa [ValueKind.key?] using key?
      have sound := wf.elementPtrSound read kind
      rcases List.mem_cons.mp mem with rfl | inside
      · obtain ⟨record, held, _⟩ := sound.base
        exact .inl (value_eq_ok.mp held).1
      · obtain ⟨record, _, held, _⟩ := sound.indices u inside
        exact .inl (value_eq_ok.mp held).1
    | _ => simp [kind, ValueKind.key?] at key?

theorem Records.reference {i : InstructionRef} {r : InstructionRecord} {h : Handle}
    (made : ctx.instruction i = .ok r) (mem : h ∈ r.operation.handles) : ctx.Records h := by
  obtain ⟨value, read, kind⟩ := instruction_eq_ok.mp made
  refine .content (value_eq_ok.mp read).2.1 ?_
  rw [kind]
  exact List.mem_cons_of_mem _ mem

theorem terminator?_congr (id : ctx'.id = ctx.id) (values : ctx'.values = ctx.values)
    (blocks : ctx'.blocks = ctx.blocks) (b : BlockRef) :
    ctx'.terminator? b = ctx.terminator? b := by
  simp only [terminator?, block_congr id blocks, value_congr id values]

end Context

namespace Build

variable {ctx : Context}

open Context

theorem voidType_runs (wf : ctx.WellFormed) :
    ∃ t mid, (voidType ctx).result = .ok (t, mid) ∧ t.ctx = mid.id ∧ mid.id = ctx.id ∧
      mid.values = ctx.values ∧ mid.blocks = ctx.blocks := by
  obtain ⟨t, mid, interned⟩ : ∃ t mid, ctx.internType .void = (t, mid) := ⟨_, _, rfl⟩
  have run : (voidType ctx).result = .ok (t, mid) :=
    bind_eq_ok.mpr ⟨(), ctx, read_eq_ok.mpr ⟨rfl, rfl⟩, update_eq_ok.mpr interned⟩
  obtain ⟨_, _, shaped⟩ := voidType_spec wf run
  have same : mid.id = ctx.id ∧ mid.values = ctx.values ∧ mid.blocks = ctx.blocks := by
    unfold Context.internType at interned
    split at interned
    · obtain ⟨_, rfl⟩ := Prod.mk.inj interned
      exact ⟨rfl, rfl, rfl⟩
    · obtain ⟨_, rfl⟩ := Prod.mk.inj interned
      exact ⟨rfl, rfl, rfl⟩
  exact ⟨t, mid, run, (shape_eq_ok.mp shaped).1, same⟩

theorem appendVoid_runs (wf : ctx.WellFormed) (operation : Operation) {b : BlockRef}
    (opened : ctx.terminator? b = .ok none) :
    ∃ i ctx', ((do append b (← voidType) operation "" : Build InstructionRef) ctx).result =
      .ok (i, ctx') ∧ ∀ h ∈ operation.handles, ctx'.Records h := by
  obtain ⟨t, mid, typed, owner, id, values, blocks⟩ := voidType_runs wf
  have opened' : mid.terminator? b = .ok none :=
    (terminator?_congr id values blocks b).trans opened
  refine ⟨_, _, bind_eq_ok.mpr ⟨t, mid, typed, append_unnamed opened' owner⟩, fun h mem => ?_⟩
  exact .reference (instruction_addInstruction.mpr (.inr ⟨rfl, rfl⟩)) mem

/-- A branch from an open block is made whatever its target is. -/
theorem createBranch_runs (wf : ctx.WellFormed) (target : BlockRef) {b : BlockRef}
    (opened : ctx.terminator? b = .ok none) :
    ∃ c ctx', (createBranch target b ctx).result = .ok (c, ctx') ∧ ctx'.Records (.block target) := by
  obtain ⟨i, ctx', run, recorded⟩ := appendVoid_runs wf (.br target) opened
  obtain ⟨t, mid, typed, appended⟩ := bind_eq_ok.mp run
  refine ⟨⟨i.value⟩, ctx', bind_eq_ok.mpr ⟨t, mid, typed, ?_⟩, ?_⟩
  · exact bind_eq_ok.mpr ⟨i, ctx', appended, pure_eq_ok.mpr ⟨rfl, rfl⟩⟩
  · exact recorded _ (List.mem_singleton.mpr rfl)

theorem createCondBranch_runs (wf : ctx.WellFormed) (ifTrue ifFalse : BlockRef) {cond : ValueRef}
    {b : BlockRef} (opened : ctx.terminator? b = .ok none)
    (typed : ctx.checkCondition cond = .ok ()) (inScope : ctx.checkOperandScope b [cond] = .ok ()) :
    ∃ c ctx', (createCondBranch cond ifTrue ifFalse b ctx).result = .ok (c, ctx') ∧
      ctx'.Records (.block ifTrue) ∧ ctx'.Records (.block ifFalse) := by
  obtain ⟨i, ctx', run, recorded⟩ := appendVoid_runs wf (.condBr cond ifTrue ifFalse) opened
  obtain ⟨t, mid, void, appended⟩ := bind_eq_ok.mp run
  refine ⟨⟨i.value⟩, ctx', ?_, ?_, ?_⟩
  · refine bind_eq_ok.mpr ⟨(), ctx, read_eq_ok.mpr ⟨typed, rfl⟩, ?_⟩
    refine bind_eq_ok.mpr ⟨(), ctx, read_eq_ok.mpr ⟨inScope, rfl⟩, ?_⟩
    refine bind_eq_ok.mpr ⟨t, mid, void, ?_⟩
    exact bind_eq_ok.mpr ⟨i, ctx', appended, pure_eq_ok.mpr ⟨rfl, rfl⟩⟩
  · exact recorded _ (by simp [Operation.handles, Operation.successors])
  · exact recorded _ (by simp [Operation.handles, Operation.successors])

theorem createReturn_runs (wf : ctx.WellFormed) (u : ValueRef) {b : BlockRef} {br : BlockRecord}
    (opened : ctx.terminator? b = .ok none) (read : ctx.block b = .ok br)
    (loose : br.parent = none) :
    ∃ c ctx', (createReturn (some u) b ctx).result = .ok (c, ctx') ∧
      ctx'.Records (.value .any u) := by
  obtain ⟨i, ctx', run, recorded⟩ := appendVoid_runs wf (.ret (some u)) opened
  obtain ⟨t, mid, void, appended⟩ := bind_eq_ok.mp run
  have typed : ctx.checkReturn (some u) b = .ok () := by simp [checkReturn, read, loose]
  have inScope : ctx.checkOperandScope b [u] = .ok () := by simp [checkOperandScope, read, loose]
  refine ⟨⟨i.value⟩, ctx', ?_, ?_⟩
  · refine bind_eq_ok.mpr ⟨(), ctx, read_eq_ok.mpr ⟨typed, rfl⟩, ?_⟩
    refine bind_eq_ok.mpr ⟨(), ctx, read_eq_ok.mpr ⟨inScope, rfl⟩, ?_⟩
    refine bind_eq_ok.mpr ⟨t, mid, void, ?_⟩
    exact bind_eq_ok.mpr ⟨i, ctx', appended, pure_eq_ok.mpr ⟨rfl, rfl⟩⟩
  · exact recorded _ (by simp [Operation.handles, Operation.operands])

end Build

namespace World

variable {w : World} {ctx : Context}

/-- In every reachable world, a recorded handle of another context is one that was not looked up; and
what is not looked up is taken, whatever context it is of. -/
theorem recorded_owned_or_unlooked (reachable : w.Reachable) (mem : ctx ∈ w.contexts) :
    (∀ h, ctx.Records h → h.owner = ctx.id ∨ ctx.Unlooked h) ∧
    (∀ target b, ctx.terminator? b = .ok none → ∃ c ctx',
      (Build.createBranch target b ctx).result = .ok (c, ctx') ∧ ctx'.Records (.block target)) ∧
    (∀ cond ifTrue ifFalse b, ctx.terminator? b = .ok none → ctx.checkCondition cond = .ok () →
      ctx.checkOperandScope b [cond] = .ok () → ∃ c ctx',
        (Build.createCondBranch cond ifTrue ifFalse b ctx).result = .ok (c, ctx') ∧
          ctx'.Records (.block ifTrue) ∧ ctx'.Records (.block ifFalse)) ∧
    (∀ u b br, ctx.terminator? b = .ok none → ctx.block b = .ok br → br.parent = none →
      ∃ c ctx', (Build.createReturn (some u) b ctx).result = .ok (c, ctx') ∧
        ctx'.Records (.value .any u)) := by
  have wf := reachable.sound.wellFormed ctx mem
  refine ⟨fun h recorded => wf.record_owned recorded, ?_, ?_, ?_⟩
  · exact fun target b opened => Build.createBranch_runs wf target opened
  · exact fun cond ifTrue ifFalse b opened typed inScope =>
      Build.createCondBranch_runs wf ifTrue ifFalse opened typed inScope
  · exact fun u b br opened read loose => Build.createReturn_runs wf u opened read loose

/-- A block of the second context is the target of a branch in the first. -/
def foreignTarget : World := after [.context, .context, .request 1 (.createBlock "" none none),
  .request 0 (.createBlock "" none none), .request 0 (.createBranch ⟨⟨2⟩, 0⟩ ⟨⟨1⟩, 0⟩)]

theorem foreignTarget_unlooked : ∃ ctx ∈ foreignTarget.contexts, ctx.id = ⟨1⟩ ∧
    ctx.Records (.block ⟨⟨2⟩, 0⟩) ∧ ctx.Unlooked (.block ⟨⟨2⟩, 0⟩) := by
  obtain ⟨ctx, found, id, made⟩ : ∃ ctx, foreignTarget.contexts[0]? = some ctx ∧ ctx.id = ⟨1⟩ ∧
      ctx.instruction ⟨⟨⟨1⟩, 0⟩⟩ = .ok ⟨⟨⟨1⟩, 0⟩, .br ⟨⟨2⟩, 0⟩⟩ :=
    ⟨_, rfl, rfl, rfl⟩
  have mem : ctx ∈ foreignTarget.contexts := List.mem_of_getElem? found
  have recorded : ctx.Records (.block ⟨⟨2⟩, 0⟩) := .reference made (List.mem_singleton.mpr rfl)
  have all := recorded_owned_or_unlooked (reachable_after (by decide +kernel)) mem
  exact ⟨ctx, mem, id, recorded, (all.1 _ recorded).resolve_left (by rw [id]; decide)⟩

end World
end ModuleIR
