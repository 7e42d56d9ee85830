import ModuleIR.Proofs.Steps.Entities

set_option autoImplicit false

/-!
# Making instructions

An instruction is added at the end of its block, and nothing else changes. Its value operands are
looked up on the way, but for a value that is returned from a detached block; branch targets are not
looked up at all.
-/
namespace ModuleIR

namespace Context

/-- Growth by one instruction. -/
structure Appends (ctx ctx' : Context) (b : BlockRef) (operation : Operation)
    (i : InstructionRef) : Prop extends ctx.Grows ctx' where
  fresh : ∀ r, ctx.instruction i ≠ .ok r
  made : ∃ r, ctx'.instruction i = .ok r ∧ r.parent = b ∧ r.operation.bare = operation.bare
  instructions : ∀ j r', ctx'.instruction j = .ok r' → j = i ∨ ∃ r, ctx.instruction j = .ok r
  parents : ∀ b r r', ctx.block b = .ok r → ctx'.block b = .ok r' → r'.parent = r.parent

variable {ctx ctx' ctx'' : Context} {b : BlockRef} {operation : Operation} {i : InstructionRef}

theorem Extends.appends (e : ctx.Extends ctx') (a : ctx'.Appends ctx'' b operation i) :
    ctx.Appends ctx'' b operation i where
  toGrows := e.toGrows.trans a.toGrows
  fresh r read := by
    obtain ⟨r', read', _⟩ := e.instruction read
    exact a.fresh r' read'
  made := a.made
  instructions j r'' read := by
    refine (a.instructions j r'' read).imp_right ?_
    rintro ⟨r', read'⟩
    exact e.instructions j r' read'
  parents b r r'' read read'' := by
    obtain ⟨r', read', _⟩ := e.block read
    exact (a.parents b r' r'' read' read'').trans (e.parents b r r' read read')

theorem Appends.extends (a : ctx.Appends ctx' b operation i) (e : ctx'.Extends ctx'') :
    ctx.Appends ctx'' b operation i where
  toGrows := a.toGrows.trans e.toGrows
  fresh := a.fresh
  made := by
    obtain ⟨r, read, parent, same⟩ := a.made
    obtain ⟨r', read', parent', same'⟩ := e.instruction read
    exact ⟨r', read', parent'.trans parent, same'.trans same⟩
  instructions j r'' read := by
    obtain ⟨r', read'⟩ := e.instructions j r'' read
    exact a.instructions j r' read'
  parents b r r'' read read'' := by
    obtain ⟨r', read', _⟩ := a.block read
    exact (e.parents b r' r'' read' read'').trans (a.parents b r r' read read')

def addInstruction (ctx : Context) (b : BlockRef) (type : TypeRef) (operation : Operation) :
    Context :=
  (ctx.allocValue { type, kind := .instruction ⟨b, operation⟩ }).2.modifyBlock b fun r =>
    { r with instructions := r.instructions ++ [⟨⟨ctx.id, ctx.values.size⟩⟩] }

section AddInstruction

variable {type : TypeRef} {br : BlockRecord}

theorem values_addInstruction (j : Nat) : (ctx.addInstruction b type operation).values[j]? =
    if j = ctx.values.size then some { type, kind := .instruction ⟨b, operation⟩ }
    else ctx.values[j]? :=
  values_allocValue _ j

theorem value_addInstruction : (ctx.addInstruction b type operation).value
    ⟨ctx.id, ctx.values.size⟩ = .ok { type, kind := .instruction ⟨b, operation⟩ } :=
  value_eq_ok.mpr ⟨rfl, (values_addInstruction ctx.values.size).trans (if_pos rfl), by simp⟩

theorem instruction_addInstruction {j : InstructionRef} {r : InstructionRecord} :
    (ctx.addInstruction b type operation).instruction j = .ok r ↔
      ctx.instruction j = .ok r ∨ (j = ⟨⟨ctx.id, ctx.values.size⟩⟩ ∧ r = ⟨b, operation⟩) := by
  have same : (ctx.addInstruction b type operation).instruction j =
      (ctx.allocValue { type, kind := .instruction ⟨b, operation⟩ }).2.instruction j :=
    instruction_congr rfl rfl j
  rw [same, instruction_eq_ok, instruction_eq_ok]
  constructor
  · rintro ⟨value, read, kind⟩
    rcases (value_allocValue (by simp)).mp read with old | ⟨new, rfl⟩
    · exact .inl ⟨value, old, kind⟩
    · refine .inr ⟨?_, (ValueKind.instruction.inj kind).symm⟩
      rw [← new]
  · rintro (⟨value, old, kind⟩ | ⟨rfl, rfl⟩)
    · exact ⟨value, (value_allocValue (by simp)).mpr (.inl old), kind⟩
    · exact ⟨_, (value_allocValue (by simp)).mpr (.inr ⟨rfl, rfl⟩), rfl⟩

theorem addInstruction_appends (read : ctx.block b = .ok br) :
    ctx.Appends (ctx.addInstruction b type operation) b operation
      ⟨⟨ctx.id, ctx.values.size⟩⟩ where
  toGrows := by
    obtain ⟨_, stored, live⟩ := block_eq_ok.mp read
    have alloc : ctx.Grows (ctx.allocValue { type, kind := .instruction ⟨b, operation⟩ }).2 :=
      allocValue_grows _
    refine alloc.trans (modifyBlock_grows fun r same => ?_)
    obtain rfl : br = r := by
      rw [← Option.some.injEq, ← stored]
      exact same
    exact ⟨rfl, List.prefix_append _ _, fun _ h => h, fun dead => by simp [live] at dead⟩
  fresh r h := by
    obtain ⟨value, held, _⟩ := instruction_eq_ok.mp h
    exact value_next_ne_ok held
  made := ⟨_, instruction_addInstruction.mpr (.inr ⟨rfl, rfl⟩), rfl, rfl⟩
  instructions j r h := by
    rcases instruction_addInstruction.mp h with old | ⟨new, _⟩
    · exact .inr ⟨r, old⟩
    · exact .inl new
  parents b' r r' h h' := by
    obtain ⟨_, old, _⟩ := block_eq_ok.mp h
    obtain ⟨_, new, _⟩ := block_eq_ok.mp h'
    change ((ctx.allocValue _).2.modifyBlock b _).blocks[b'.index]? = _ at new
    rw [blocks_modifyBlock] at new
    change (if _ then Option.map _ ctx.blocks[b'.index]? else ctx.blocks[b'.index]?) = _ at new
    rw [old] at new
    split at new
    · obtain rfl := Option.some.inj new
      rfl
    · obtain rfl := Option.some.inj new
      rfl

theorem blocks_addInstruction (j : Nat) : (ctx.addInstruction b type operation).blocks[j]? =
    if b.index = j then ctx.blocks[j]?.map fun r =>
      { r with instructions := r.instructions ++ [⟨⟨ctx.id, ctx.values.size⟩⟩] }
    else ctx.blocks[j]? :=
  blocks_modifyBlock _ _ _

theorem block_addInstruction (read : ctx.block b = .ok br) :
    (ctx.addInstruction b type operation).block b = .ok
      { br with instructions := br.instructions ++ [⟨⟨ctx.id, ctx.values.size⟩⟩] } := by
  obtain ⟨owner, stored, live⟩ := block_eq_ok.mp read
  refine block_eq_ok.mpr ⟨owner, ?_, live⟩
  rw [blocks_addInstruction, if_pos rfl, stored]
  rfl

theorem addInstruction_blockSound (wf : ctx.WellFormed) (read : ctx.block b = .ok br) :
    (ctx.addInstruction b type operation).BlockSound b.index
      { br with instructions := br.instructions ++ [⟨⟨ctx.id, ctx.values.size⟩⟩] } := by
  obtain ⟨owner, _, live⟩ := block_eq_ok.mp read
  have appends : ctx.Appends (ctx.addInstruction b type operation) b operation
    ⟨⟨ctx.id, ctx.values.size⟩⟩ := addInstruction_appends read
  have sound := appends.blockSound (wf.blockSound read)
  have new : (⟨⟨ctx.id, ctx.values.size⟩⟩ : InstructionRef) ∉ br.instructions := by
    intro mem
    obtain ⟨r, known, _⟩ := wf.block_instruction read mem
    exact appends.fresh r known
  refine ⟨sound.owner, fun dead => by simp [live] at dead, sound.parent, ?_, ?_⟩
  · intro k mem
    rcases List.mem_append.mp mem with old | fresh
    · exact sound.instructions k old
    · obtain rfl := List.mem_singleton.mp fresh
      refine ⟨_, instruction_addInstruction.mpr (.inr ⟨rfl, rfl⟩), ?_⟩
      rw [appends.id, ← owner]
  · exact List.nodup_append.mpr ⟨sound.nodup, by simp,
      fun k old l fresh both => new (List.mem_singleton.mp fresh ▸ both ▸ old)⟩

theorem addInstruction_wellFormed (wf : ctx.WellFormed) (read : ctx.block b = .ok br)
    (typed : ctx.HasType type) (references : ∀ h ∈ operation.handles, ctx.Admits h)
    (owned : ∀ u ∈ operation.operands, u.ctx = ctx.id ∨
      (operation = .ret (some u) ∧ br.parent = none)) :
    (ctx.addInstruction b type operation).WellFormed := by
  have appends : ctx.Appends (ctx.addInstruction b type operation) b operation
    ⟨⟨ctx.id, ctx.values.size⟩⟩ := addInstruction_appends read
  have growth := appends.toGrows
  refine wf.revise growth rfl rfl rfl ?_ ?_ (fun j r h => .inl h) ?_
  · intro j r h
    rw [values_addInstruction] at h
    split at h
    · rename_i last
      obtain rfl := Option.some.inj h
      refine .inr ⟨⟨growth.hasType typed, ?_⟩, rfl⟩
      refine ⟨⟨_, block_addInstruction read, ?_⟩, fun h mem => growth.admits (references h mem)⟩
      rw [last]
      exact List.mem_append_right _ (List.mem_singleton.mpr rfl)
    · exact .inl ⟨r, h, .refl r⟩
  · intro j r h
    rw [blocks_addInstruction] at h
    split at h
    · rename_i same
      rw [← same, (block_eq_ok.mp read).2.1] at h
      obtain rfl := Option.some.inj h
      exact .inr (same ▸ addInstruction_blockSound wf read)
    · exact .inl ⟨r, h, rfl⟩
  · intro j r h u mem
    rcases instruction_addInstruction.mp h with old | ⟨_, rfl⟩
    · rcases wf.operands j r old u mem with own | ⟨returned, br', held, loose⟩
      · exact .inl own
      · obtain ⟨br'', held', _⟩ := growth.block held
        exact .inr ⟨returned, br'', held', (appends.parents _ _ _ held held').trans loose⟩
    · rcases owned u mem with own | ⟨returned, loose⟩
      · exact .inl own
      · exact .inr ⟨returned, _, block_addInstruction read, loose⟩

end AddInstruction

/-! ### The checks -/

theorem checkOpen_eq_ok {u : Unit} :
    ctx.checkOpen b operation = .ok u ↔ ctx.terminator? b = .ok none := by
  unfold checkOpen
  rw [Checked.bind_eq_ok]
  constructor
  · rintro ⟨last, read, rest⟩
    cases last with
    | none => exact read
    | some last =>
      obtain ⟨_, _, rest⟩ := Checked.bind_eq_ok.mp rest
      obtain ⟨_, _, impossible⟩ := Checked.bind_eq_ok.mp rest
      cases impossible
  · intro read
    exact ⟨none, read, rfl⟩

theorem block_of_terminator? {last : Option InstructionRef} (h : ctx.terminator? b = .ok last) :
    ∃ br, ctx.block b = .ok br := by
  obtain ⟨br, read, _⟩ := Checked.bind_eq_ok.mp h
  exact ⟨br, read⟩

def UsableIn (ctx : Context) (b : BlockRef) (u : ValueRef) : Prop :=
  ∀ br f, ctx.block b = .ok br → br.parent = some f →
    ∃ fr anchor, ctx.function f = .ok fr ∧ ctx.anchor u = .ok anchor ∧
      anchor.Within fr.module (some f) false

theorem checkOperandScope_eq_ok {us : List ValueRef} {u : Unit} :
    ctx.checkOperandScope b us = .ok u ↔ ∃ br, ctx.block b = .ok br ∧
      ∀ f, br.parent = some f → ∃ fr, ctx.function f = .ok fr ∧
        ∀ v ∈ us, ∃ anchor, ctx.anchor v = .ok anchor ∧ anchor.Within fr.module (some f) false := by
  unfold checkOperandScope
  rw [Checked.bind_eq_ok]
  refine exists_congr fun br => and_congr_right fun _ => ?_
  cases parent : br.parent with
  | none => simp
  | some f =>
    simp only [Checked.bind_eq_ok, Option.some.injEq, forall_eq']
    refine exists_congr fun fr => and_congr_right fun _ => ?_
    simp only [← scopeFault_eq_none, ← firstScopeFault_eq_none]
    constructor
    · rintro ⟨fault, found, rest⟩
      cases fault with
      | none => exact found
      | some fault => cases rest
    · intro found
      exact ⟨none, found, rfl⟩

theorem usable_of_check {us : List ValueRef} {u : Unit} (h : ctx.checkOperandScope b us = .ok u) :
    ∀ v ∈ us, ctx.UsableIn b v := by
  obtain ⟨br, read, inside⟩ := checkOperandScope_eq_ok.mp h
  intro v mem br' f read' parent
  obtain rfl : br = br' := by simpa [read] using read'
  obtain ⟨fr, known, within⟩ := inside f parent
  obtain ⟨anchor, home, fits⟩ := within v mem
  exact ⟨fr, anchor, known, home, fits⟩

theorem value_of_valueType {v : ValueRef} {t : TypeRef} (h : ctx.valueType v = .ok t) :
    ∃ r, ctx.value v = .ok r := by
  obtain ⟨r, read, _⟩ := valueType_eq_ok.mp h
  exact ⟨r, read⟩

theorem checkArguments_live {position : Nat} {params : List TypeRef} {args : List ValueRef}
    {u : Unit} (h : ctx.checkArguments position params args = .ok u) :
    ∀ v ∈ args, ∃ r, ctx.value v = .ok r := by
  induction args generalizing position params with
  | nil => simp
  | cons arg rest ih =>
    rw [List.forall_mem_cons]
    cases params with
    | nil =>
      obtain ⟨ty, typed, h⟩ := Checked.bind_eq_ok.mp h
      refine ⟨value_of_valueType typed, ?_⟩
      obtain ⟨shape, _, h⟩ := Checked.bind_eq_ok.mp h
      split at h
      · simp [Checked.bind_eq_ok] at h
      · exact ih h
    | cons param params =>
      obtain ⟨ty, typed, h⟩ := Checked.bind_eq_ok.mp h
      refine ⟨value_of_valueType typed, ?_⟩
      split at h
      · simp [Checked.bind_eq_ok] at h
      · exact ih h

theorem value_of_calleeSignature? {callee : ValueRef} {signature : Option FunctionTypeRef}
    (h : ctx.calleeSignature? callee = .ok signature) : ∃ r, ctx.value callee = .ok r := by
  obtain ⟨ty, typed, _⟩ := Checked.bind_eq_ok.mp h
  exact value_of_valueType typed

theorem calleeSignature?_eq_some {callee : ValueRef} {signature : FunctionTypeRef} :
    ctx.calleeSignature? callee = .ok (some signature) ↔ ∃ r space result params variadic,
      ctx.value callee = .ok r ∧ ctx.shape r.type = .ok (.pointer signature.type space) ∧
        ctx.signature signature = .ok (result, params, variadic) := by
  simp only [calleeSignature?, Checked.bind_eq_ok, signature_eq_ok]
  constructor
  · rintro ⟨ty, typed, shape, shaped, h⟩
    obtain ⟨r, read, rfl⟩ := valueType_eq_ok.mp typed
    cases shape with
    | pointer pointee space =>
      obtain ⟨called, known, h⟩ := Checked.bind_eq_ok.mp h
      cases called with
      | function result params variadic =>
        obtain rfl : (⟨pointee⟩ : FunctionTypeRef) = signature := by
          simpa [Shape.isFunction] using h
        exact ⟨r, space, result, params, variadic, read, shaped, known⟩
      | _ => simp [Shape.isFunction] at h
    | _ => simp at h
  · rintro ⟨r, space, result, params, variadic, read, shaped, known⟩
    refine ⟨r.type, valueType_eq_ok.mpr ⟨r, read, rfl⟩, _, shaped, ?_⟩
    simp [known, Shape.isFunction]

theorem calleeSignature?_shape {callee : ValueRef} {signature : FunctionTypeRef}
    (h : ctx.calleeSignature? callee = .ok (some signature)) :
    ∃ result params variadic, ctx.signature signature = .ok (result, params, variadic) := by
  obtain ⟨_, _, result, params, variadic, _, _, signed⟩ := calleeSignature?_eq_some.mp h
  exact ⟨result, params, variadic, signed⟩

/-- What is called has a function type, and the arguments are as many as it says and pass the checks
of its parameters. -/
theorem checkCall_parts {callee : ValueRef} {args : List ValueRef} {signature : FunctionTypeRef}
    (h : ctx.checkCall callee args = .ok signature) :
    ctx.calleeSignature? callee = .ok (some signature) ∧ ∃ result params variadic u,
      ctx.signature signature = .ok (result, params, variadic) ∧
        ctx.checkArguments 0 params args = .ok u ∧
        (if variadic then params.length ≤ args.length else args.length = params.length) := by
  obtain ⟨found, called, h⟩ := Checked.bind_eq_ok.mp h
  cases found with
  | none =>
    obtain ⟨_, _, impossible⟩ := Checked.bind_eq_ok.mp h
    cases impossible
  | some known =>
    obtain ⟨⟨result, params, variadic⟩, read, h⟩ := Checked.bind_eq_ok.mp h
    dsimp only at h
    have rest : ∃ u, ctx.checkArguments 0 params args = .ok u ∧ known = signature ∧
        (if variadic then params.length ≤ args.length else args.length = params.length) := by
      split at h <;> rename_i counts
      · split at h
        · simp [Checked.bind_eq_ok] at h
        · rename_i fits
          obtain ⟨u, checked, same⟩ := Checked.bind_eq_ok.mp h
          exact ⟨u, checked, by simpa using same, by simpa [counts] using fits⟩
      · split at h
        · simp [Checked.bind_eq_ok] at h
        · rename_i fits
          obtain ⟨u, checked, same⟩ := Checked.bind_eq_ok.mp h
          exact ⟨u, checked, by simpa using same, by simpa [counts] using fits⟩
    obtain ⟨u, checked, rfl, counted⟩ := rest
    exact ⟨called, result, params, variadic, u, read, checked, counted⟩

theorem checkCall_live {callee : ValueRef} {args : List ValueRef} {signature : FunctionTypeRef}
    (h : ctx.checkCall callee args = .ok signature) :
    (∃ r, ctx.value callee = .ok r) ∧ (∀ v ∈ args, ∃ r, ctx.value v = .ok r) ∧
      ∃ result params variadic, ctx.signature signature = .ok (result, params, variadic) := by
  obtain ⟨called, result, params, variadic, _, read, checked, _⟩ := checkCall_parts h
  exact ⟨value_of_calleeSignature? called, checkArguments_live checked, result, params, variadic,
    read⟩

theorem checkDirectCallee_eq_ok {callee : ValueRef} {u : Unit} :
    ctx.checkDirectCallee callee b = .ok u ↔ ∃ r br, ctx.value callee = .ok r ∧
      ctx.block b = .ok br ∧ ∀ target caller, r.kind = .function target →
        br.parent = some caller → ∃ fr, ctx.function caller = .ok fr ∧ target.module = fr.module := by
  simp only [checkDirectCallee, Checked.bind_eq_ok]
  constructor
  · rintro ⟨r, read, br, held, h⟩
    refine ⟨r, br, read, held, ?_⟩
    intro target caller kind parent
    simp only [kind, parent, Checked.bind_eq_ok] at h
    obtain ⟨fr, known, h⟩ := h
    refine ⟨fr, known, Decidable.byContradiction fun different => ?_⟩
    rw [if_pos different] at h
    obtain ⟨_, _, h⟩ := Checked.bind_eq_ok.mp h
    obtain ⟨_, _, h⟩ := Checked.bind_eq_ok.mp h
    obtain ⟨_, _, impossible⟩ := Checked.bind_eq_ok.mp h
    cases impossible
  · rintro ⟨r, br, read, held, same⟩
    refine ⟨r, read, br, held, ?_⟩
    cases kind : r.kind with
    | function target =>
      cases parent : br.parent with
      | none => rfl
      | some caller =>
        obtain ⟨fr, known, equal⟩ := same target caller kind parent
        simp [known, equal]
    | _ => rfl

/-- What is returned is of the context, unless the block is detached. -/
theorem checkReturn_owned {value : Option ValueRef} {u : Unit}
    (h : ctx.checkReturn value b = .ok u) :
    ∃ br, ctx.block b = .ok br ∧ (br.parent = none ∨ ∀ v ∈ value, v.ctx = ctx.id) := by
  obtain ⟨br, read, h⟩ := Checked.bind_eq_ok.mp h
  refine ⟨br, read, ?_⟩
  cases parent : br.parent with
  | none => exact .inl rfl
  | some f =>
    simp only [parent, Checked.bind_eq_ok] at h
    obtain ⟨fr, _, ⟨expected, _⟩, _, h⟩ := h
    refine .inr fun v mem => ?_
    obtain rfl : value = some v := mem
    obtain ⟨actual, typed, _⟩ := Checked.bind_eq_ok.mp h
    obtain ⟨r, known⟩ := value_of_valueType typed
    exact (value_eq_ok.mp known).1

theorem checkCondition_live {cond : ValueRef} {u : Unit} (h : ctx.checkCondition cond = .ok u) :
    ∃ r, ctx.value cond = .ok r := by
  obtain ⟨ty, typed, _⟩ := Checked.bind_eq_ok.mp h
  exact value_of_valueType typed

end Context

namespace Build

open Context

variable {ctx ctx' : Context}

/-- An instruction is added to an open block, and then named if a name is given. -/
theorem append_parts {b : BlockRef} {type : TypeRef} {operation : Operation} {name : String}
    {i : InstructionRef} (run : (append b type operation name ctx).result = .ok (i, ctx')) :
    (∃ br, ctx.block b = .ok br) ∧ i = ⟨⟨ctx.id, ctx.values.size⟩⟩ ∧
      ((name.isEmpty = true ∧ ctx.addInstruction b type operation = ctx') ∨
        (name.isEmpty = false ∧
          (setValueName i.value name (ctx.addInstruction b type operation)).result =
            .ok ((), ctx'))) := by
  obtain ⟨_, _, opened, run⟩ := bind_eq_ok.mp run
  obtain ⟨opened', rfl⟩ := read_eq_ok.mp opened
  have live := block_of_terminator? (checkOpen_eq_ok.mp opened')
  obtain ⟨value, _, allocated, run⟩ := bind_eq_ok.mp run
  obtain ⟨_, stored⟩ := allocValue_eq_ok.mp allocated
  obtain ⟨rfl, rfl⟩ := Prod.mk.inj stored
  obtain ⟨_, mid, changed, run⟩ := bind_eq_ok.mp run
  obtain rfl : ctx.addInstruction b type operation = mid := change_eq_ok.mp changed
  cases empty : name.isEmpty with
  | false =>
    simp only [empty, Bool.not_false, if_true, bind_eq_ok, pure_eq_ok] at run
    obtain ⟨_, last, named, rfl, rfl⟩ := run
    exact ⟨live, rfl, .inr ⟨rfl, named⟩⟩
  | true =>
    simp only [empty, Bool.not_true, Bool.false_eq_true, if_false, pure_eq_ok] at run
    obtain ⟨rfl, rfl⟩ := run
    exact ⟨live, rfl, .inl ⟨rfl, rfl⟩⟩

theorem append_spec (wf : ctx.WellFormed) {b : BlockRef} {type : TypeRef} {operation : Operation}
    {name : String} {i : InstructionRef} (typed : ctx.HasType type)
    (references : ∀ h ∈ operation.handles, ctx.Admits h)
    (owned : ∀ br, ctx.block b = .ok br → ∀ u ∈ operation.operands,
      u.ctx = ctx.id ∨ (operation = .ret (some u) ∧ br.parent = none))
    (run : (append b type operation name ctx).result = .ok (i, ctx')) :
    ctx.Appends ctx' b operation i ∧ ctx'.WellFormed := by
  obtain ⟨⟨br, read⟩, rfl, named⟩ := append_parts run
  have appends : ctx.Appends (ctx.addInstruction b type operation) b operation
    ⟨⟨ctx.id, ctx.values.size⟩⟩ := addInstruction_appends read
  have wf' := addInstruction_wellFormed wf read typed references (owned br read)
  rcases named with ⟨_, rfl⟩ | ⟨_, named⟩
  · exact ⟨appends, wf'⟩
  · obtain ⟨extends', wf''⟩ := setValueName_spec wf' named
    exact ⟨appends.extends extends', wf''⟩

theorem append_unnamed {b : BlockRef} {type : TypeRef} {operation : Operation}
    (opened : ctx.terminator? b = .ok none) (owner : type.ctx = ctx.id) :
    (append b type operation "" ctx).result =
      .ok (⟨⟨ctx.id, ctx.values.size⟩⟩, ctx.addInstruction b type operation) := by
  refine bind_eq_ok.mpr ⟨(), ctx, read_eq_ok.mpr ⟨checkOpen_eq_ok.mpr opened, rfl⟩, ?_⟩
  refine bind_eq_ok.mpr ⟨_, _, allocValue_eq_ok.mpr ⟨owner, rfl⟩, ?_⟩
  exact bind_eq_ok.mpr ⟨(), _, change_eq_ok.mpr rfl, pure_eq_ok.mpr ⟨rfl, rfl⟩⟩

theorem createCall_unnamed (wf : ctx.WellFormed) {callee : ValueRef} {args : List ValueRef}
    {b : BlockRef} {signature : FunctionTypeRef} {result : TypeRef} {params : List TypeRef}
    {variadic : Bool} (opened : ctx.terminator? b = .ok none)
    (called : ctx.checkCall callee args = .ok signature)
    (signed : ctx.signature signature = .ok (result, params, variadic))
    (direct : ctx.checkDirectCallee callee b = .ok ())
    (inScope : ctx.checkOperandScope b args = .ok ()) :
    (createCall callee args "" b ctx).result =
      .ok (⟨⟨ctx.id, ctx.values.size⟩⟩, ctx.addInstruction b result (.call callee args .c)) := by
  obtain ⟨shape, shaped⟩ : ctx.HasType result :=
    wf.hasType_inner (signature_eq_ok.mp signed) List.mem_cons_self
  refine bind_eq_ok.mpr ⟨signature, ctx, read_eq_ok.mpr ⟨called, rfl⟩, ?_⟩
  refine bind_eq_ok.mpr ⟨(), ctx, read_eq_ok.mpr ⟨direct, rfl⟩, ?_⟩
  refine bind_eq_ok.mpr ⟨(), ctx, read_eq_ok.mpr ⟨inScope, rfl⟩, ?_⟩
  refine bind_eq_ok.mpr ⟨_, ctx, read_eq_ok.mpr ⟨signed, rfl⟩, ?_⟩
  refine bind_eq_ok.mpr ⟨_, _, append_unnamed opened (shape_eq_ok.mp shaped).1, ?_⟩
  exact pure_eq_ok.mpr ⟨rfl, rfl⟩

theorem voidType_spec (wf : ctx.WellFormed) {t : TypeRef}
    (run : (voidType ctx).result = .ok (t, ctx')) :
    ctx.Extends ctx' ∧ ctx'.WellFormed ∧ ctx'.shape t = .ok .void :=
  internType_spec wf (by simp [Shape.inner]) run

theorem createCall_spec (wf : ctx.WellFormed) {callee : ValueRef} {args : List ValueRef}
    {name : String} {b : BlockRef} {c : CallRef}
    (admitted : ∀ u ∈ callee :: args, ctx.Admits (.value .any u))
    (run : (createCall callee args name b ctx).result = .ok (c, ctx')) :
    ctx.Appends ctx' b (.call callee args .c) c.toInstruction ∧ ctx'.WellFormed ∧
      (∀ u ∈ callee :: args, ∃ r, ctx.value u = .ok r) ∧ (∀ u ∈ args, ctx.UsableIn b u) ∧
      ∃ r br, ctx.value callee = .ok r ∧ ctx.block b = .ok br ∧
        ∀ target caller, r.kind = .function target → br.parent = some caller →
          ∃ fr, ctx.function caller = .ok fr ∧ target.module = fr.module := by
  simp only [createCall, bind_eq_ok, read_eq_ok, pure_eq_ok] at run
  obtain ⟨signature, _, ⟨called, rfl⟩, _, _, ⟨direct, rfl⟩, _, _, ⟨inScope, rfl⟩,
    ⟨result, params, variadic⟩, _, ⟨signed, rfl⟩, i, _, appended, rfl, rfl⟩ := run
  obtain ⟨calleeLive, argsLive, _⟩ := checkCall_live called
  have live : ∀ u ∈ callee :: args, ∃ r, ctx.value u = .ok r :=
    List.forall_mem_cons.mpr ⟨calleeLive, argsLive⟩
  have typed : ctx.HasType result :=
    wf.hasType_inner (signature_eq_ok.mp signed) (List.mem_cons_self)
  obtain ⟨appends, wf'⟩ := append_spec wf typed (by
      intro h mem
      obtain ⟨u, operand, rfl⟩ := by simpa [Operation.handles, Operation.successors] using mem
      refine admitted u ?_
      simpa [Operation.operands, or_comm] using operand) (by
      intro br read u mem
      obtain ⟨r, known⟩ := live u (by simpa [Operation.operands, or_comm] using mem)
      exact .inl (value_eq_ok.mp known).1) appended
  exact ⟨appends, wf', live, usable_of_check inScope, checkDirectCallee_eq_ok.mp direct⟩

theorem createReturn_spec (wf : ctx.WellFormed) {value : Option ValueRef} {b : BlockRef}
    {c : ReturnRef} (admitted : ∀ u ∈ value, ctx.Admits (.value .any u))
    (run : (createReturn value b ctx).result = .ok (c, ctx')) :
    ctx.Appends ctx' b (.ret value) c.toInstruction ∧ ctx'.WellFormed ∧
      (∃ br, ctx.block b = .ok br) ∧ ∀ u ∈ value, ctx.UsableIn b u := by
  obtain ⟨_, _, checked, run⟩ := bind_eq_ok.mp run
  obtain ⟨checked', rfl⟩ := read_eq_ok.mp checked
  obtain ⟨usable, run⟩ : (∀ u ∈ value, ctx.UsableIn b u) ∧ ((do
      let void ← voidType
      return (⟨(← append b void (.ret value) "").value⟩ : ReturnRef) : Build ReturnRef) ctx).result =
        .ok (c, ctx') := by
    cases value with
    | none => exact ⟨by simp, run⟩
    | some v =>
      obtain ⟨_, _, tested, run⟩ := bind_eq_ok.mp run
      obtain ⟨inScope, rfl⟩ := read_eq_ok.mp tested
      refine ⟨?_, run⟩
      intro u mem
      obtain rfl : v = u := Option.some.inj mem
      exact usable_of_check inScope v (List.mem_singleton.mpr rfl)
  simp only [bind_eq_ok, pure_eq_ok] at run
  obtain ⟨void, mid, typed, i, _, appended, rfl, rfl⟩ := run
  obtain ⟨extends', wf', shaped⟩ := voidType_spec wf typed
  obtain ⟨appends, wf''⟩ := append_spec wf' ⟨_, shaped⟩ (by
      intro h mem
      obtain ⟨u, rfl, rfl⟩ := by
        simpa [Operation.handles, Operation.successors, Operation.operands] using mem
      exact extends'.admits (admitted u rfl)) (by
      intro br' read' u mem
      obtain rfl : value = some u := by simpa [Operation.operands] using mem
      obtain ⟨br, read, loose | owned⟩ := checkReturn_owned checked'
      · exact .inr ⟨rfl, (extends'.parents b br br' read read').trans loose⟩
      · exact .inl ((owned u rfl).trans extends'.id.symm)) appended
  obtain ⟨br, read, _⟩ := checkReturn_owned checked'
  exact ⟨extends'.appends appends, wf'', ⟨br, read⟩, usable⟩

theorem createBranch_spec (wf : ctx.WellFormed) {target b : BlockRef} {c : BranchRef}
    (admitted : ctx.Admits (.block target))
    (run : (createBranch target b ctx).result = .ok (c, ctx')) :
    ctx.Appends ctx' b (.br target) c.toInstruction ∧ ctx'.WellFormed := by
  simp only [createBranch, bind_eq_ok, pure_eq_ok] at run
  obtain ⟨void, mid, typed, i, _, appended, rfl, rfl⟩ := run
  obtain ⟨extends', wf', shaped⟩ := voidType_spec wf typed
  obtain ⟨appends, wf''⟩ := append_spec wf' ⟨_, shaped⟩ (by
      intro h mem
      obtain rfl : h = .block target := by
        simpa [Operation.handles, Operation.successors, Operation.operands] using mem
      exact extends'.admits admitted) (by simp [Operation.operands]) appended
  exact ⟨extends'.appends appends, wf''⟩

theorem createCondBranch_spec (wf : ctx.WellFormed) {cond : ValueRef}
    {ifTrue ifFalse b : BlockRef} {c : BranchRef} (admitted : ctx.Admits (.value .any cond) ∧
      ctx.Admits (.block ifTrue) ∧ ctx.Admits (.block ifFalse))
    (run : (createCondBranch cond ifTrue ifFalse b ctx).result = .ok (c, ctx')) :
    ctx.Appends ctx' b (.condBr cond ifTrue ifFalse) c.toInstruction ∧ ctx'.WellFormed ∧
      (∃ br, ctx.block b = .ok br) ∧ (∃ r, ctx.value cond = .ok r) ∧ ctx.UsableIn b cond := by
  simp only [createCondBranch, bind_eq_ok, read_eq_ok, pure_eq_ok] at run
  obtain ⟨_, _, ⟨tested, rfl⟩, _, _, ⟨inScope, rfl⟩, void, mid, typed, i, _, appended, rfl, rfl⟩ :=
    run
  obtain ⟨r, known⟩ := checkCondition_live tested
  obtain ⟨extends', wf', shaped⟩ := voidType_spec wf typed
  obtain ⟨appends, wf''⟩ := append_spec wf' ⟨_, shaped⟩ (by
      intro h mem
      obtain rfl | rfl | rfl : h = .value .any cond ∨ h = .block ifTrue ∨ h = .block ifFalse := by
        simpa [Operation.handles, Operation.successors, Operation.operands] using mem
      · exact extends'.admits admitted.1
      · exact extends'.admits admitted.2.1
      · exact extends'.admits admitted.2.2) (by
      intro br read u mem
      obtain rfl : u = cond := by simpa [Operation.operands] using mem
      exact .inl ((value_eq_ok.mp known).1.trans extends'.id.symm)) appended
  obtain ⟨br, read, _⟩ := checkOperandScope_eq_ok.mp inScope
  exact ⟨extends'.appends appends, wf'', ⟨br, read⟩, ⟨r, known⟩,
    usable_of_check inScope cond (List.mem_singleton.mpr rfl)⟩

end Build
end ModuleIR
