import ModuleIR.Proofs.World.Placement
import ModuleIR.Proofs.World.Reachable

set_option autoImplicit false

/-!
# Operands in scope

Once a block is in a function, what its instructions use has to be in scope there: a free constant,
an entity of the same module, an argument or an instruction of the same function, or an instruction
of a block that is detached still. Every request that places an instruction sees to that, in one of
three ways, with one exception: the callee of a call that is made in a placed block is looked at only
when it is a function itself.
-/
namespace ModuleIR

namespace Context

/-- An operand that a function of a module may use. -/
def InScope (ctx : Context) (m : ModuleRef) (f : FunctionRef) (u : ValueRef) : Prop :=
  ∃ anchor, ctx.Anchored u anchor ∧ anchor.Within m (some f) false

variable {ctx ctx' : Context} {m : ModuleRef} {f : FunctionRef} {u : ValueRef}

theorem InScope.grow (g : ctx.Grows ctx')
    (moves : ∀ b r r', ctx.block b = .ok r → ctx'.block b = .ok r' → r.parent = none →
      r'.parent = none ∨ r'.parent = some f) (h : ctx.InScope m f u) : ctx'.InScope m f u := by
  obtain ⟨anchor, home, within⟩ := h
  cases anchor with
  | free => exact ⟨_, home.grow g (by simp), within⟩
  | module owner => exact ⟨_, home.grow g (by simp), within⟩
  | function owner => exact ⟨_, home.grow g (by simp), within⟩
  | detached =>
    generalize same : Anchor.detached = anchor at home
    induction home with
    | int | bytes | global | function | argument | placed => cases same
    | elementPtr read kind base ih =>
      obtain ⟨anchor', home', within'⟩ := ih same
      obtain ⟨r', read', _, kind'⟩ := g.fixedValue read kind rfl
      exact ⟨anchor', .elementPtr read' kind' home', within'⟩
    | detached read kind block parent =>
      obtain ⟨r', read', _, step⟩ := g.value read
      obtain ⟨i', hk, parentSame, _⟩ := (kind ▸ step).of_instruction
      obtain ⟨b', block', _⟩ := g.block block
      rcases moves _ _ b' block block' parent with loose | placed
      · exact ⟨.detached, .detached read' hk (parentSame ▸ block') loose, rfl⟩
      · exact ⟨.function f, .placed read' hk (parentSame ▸ block') placed, rfl⟩

theorem Appends.inScope {b : BlockRef} {operation : Operation} {i : InstructionRef}
    (a : ctx.Appends ctx' b operation i) (h : ctx.InScope m f u) : ctx'.InScope m f u :=
  h.grow a.toGrows fun b r r' read read' loose => .inl ((a.parents b r r' read read').trans loose)

theorem Places.inScope {b : BlockRef} (p : ctx.Places ctx' b f) (h : ctx.InScope m f u) :
    ctx'.InScope m f u := by
  refine h.grow p.toGrows fun c r r' read read' loose => ?_
  by_cases same : c = b
  · subst same
    obtain ⟨placed, read'', parent⟩ := p.placed
    obtain rfl := Checked.unique read' read''
    exact .inr parent
  · exact .inl ((p.parents c r r' same read read').trans loose)

theorem UsableIn.inScope {b : BlockRef} {br : BlockRecord} {fr : FunctionRecord}
    (h : ctx.UsableIn b u) (read : ctx.block b = .ok br) (parent : br.parent = some f)
    (known : ctx.function f = .ok fr) : ctx.InScope fr.module f u := by
  obtain ⟨fr', anchor, known', home, within⟩ := h br f read parent
  obtain rfl := Checked.unique known known'
  exact ⟨anchor, anchored_of_anchor home, within⟩

/-- The operands of an appended instruction stay in scope when they were usable. -/
theorem Appends.operands_inScope {b : BlockRef} {operation : Operation} {j : InstructionRef}
    {Q : ValueRef → Prop} (a : ctx.Appends ctx' b operation j) (wf : ctx.WellFormed)
    (into : ∃ br, ctx.block b = .ok br)
    (usable : ∀ u ∈ operation.operands, ctx.UsableIn b u ∨ Q u) {i : InstructionRef}
    {r : InstructionRecord} (h : ctx'.PlacedIn i r f) (fresh : ¬∃ r, ctx.PlacedIn i r f) :
    ∃ fr, ctx'.function f = .ok fr ∧
      ∀ u ∈ r.operation.operands, ctx'.InScope fr.module f u ∨ Q u := by
  rcases a.placedIn wf h with old | ⟨bare, br', read', parent'⟩
  · exact absurd old fresh
  · obtain ⟨br, read⟩ := into
    have parent : br.parent = some f := (a.parents b br br' read read').symm.trans parent'
    obtain ⟨fr, known, _⟩ := wf.block_listed read parent
    obtain ⟨fr', known', module, _⟩ := a.function known
    refine ⟨fr', known', fun u mem => ?_⟩
    rw [Operation.operands_eq_of_bare bare] at mem
    refine (usable u mem).imp_left fun fits => ?_
    rw [module]
    exact a.inScope (fits.inScope read parent known)

theorem Places.operands_inScope {b : BlockRef} {br : BlockRecord} {g : FunctionRef}
    {gr : FunctionRecord} (p : ctx.Places ctx' b g) (wf : ctx.WellFormed)
    (read : ctx.block b = .ok br) (caller : ctx.function g = .ok gr)
    (usable : ∀ i ∈ br.instructions, ∃ r, ctx.instruction i = .ok r ∧
      ∀ u ∈ r.operation.operands, ctx.InScope gr.module g u) {i : InstructionRef}
    {r : InstructionRecord} (h : ctx'.PlacedIn i r f) (fresh : ¬∃ r, ctx.PlacedIn i r f) :
    ∃ fr, ctx'.function f = .ok fr ∧ ∀ u ∈ r.operation.operands, ctx'.InScope fr.module f u := by
  rcases p.placedIn wf h with old | ⟨rfl, here, old, made, bare⟩
  · exact absurd old fresh
  · obtain ⟨gr', caller', module, _⟩ := p.function caller
    refine ⟨gr', caller', fun u mem => ?_⟩
    obtain ⟨same, made', parent, _⟩ := p.instruction made
    obtain rfl := Checked.unique h.made made'
    obtain ⟨br', read', listed⟩ := wf.instruction_listed made
    rw [← parent, here] at read'
    obtain rfl := Checked.unique read read'
    obtain ⟨r', made'', within⟩ := usable i listed
    obtain rfl := Checked.unique made made''
    rw [Operation.operands_eq_of_bare bare] at mem
    rw [module]
    exact p.inScope (within u mem)

end Context

namespace Build

open Context

variable {ctx ctx' : Context}

theorem createCall_usable (wf : ctx.WellFormed) {callee : ValueRef} {args : List ValueRef}
    {name : String} {b : BlockRef} {c : CallRef}
    (admitted : ∀ u ∈ callee :: args, ctx.Admits (.value .any u))
    (run : (createCall callee args name b ctx).result = .ok (c, ctx')) :
    ctx.Appends ctx' b (.call callee args .c) c.toInstruction ∧ (∃ br, ctx.block b = .ok br) ∧
      ∀ u ∈ args ++ [callee], ctx.UsableIn b u ∨
        (u = callee ∧ u ∉ args ∧ ∀ target, ctx.function ⟨callee⟩ ≠ .ok target) := by
  obtain ⟨appends, _, _, usable, r, br, read, held, direct⟩ := createCall_spec wf admitted run
  refine ⟨appends, ⟨br, held⟩, fun u mem => ?_⟩
  by_cases arg : u ∈ args
  · exact .inl (usable u arg)
  · obtain rfl : u = callee := by simpa [arg] using mem
    by_cases function : ∃ target, ctx.function ⟨u⟩ = .ok target
    · obtain ⟨target, known⟩ := function
      obtain ⟨r', read', kind⟩ := function_eq_ok.mp known
      obtain rfl := Checked.unique read read'
      refine .inl fun br' f held' parent => ?_
      obtain rfl := Checked.unique held held'
      obtain ⟨fr, caller, same⟩ := direct target f kind parent
      exact ⟨fr, _, caller, wf.anchor_eq_ok.mpr (.function read kind), same⟩
    · exact .inr ⟨rfl, arg, fun target known => function ⟨target, known⟩⟩

/-- A call goes through wherever its callee belongs, when the callee is no function itself. -/
theorem createCall_runs (wf : ctx.WellFormed) {callee : ValueRef} {args : List ValueRef}
    {b : BlockRef} {signature : FunctionTypeRef} (opened : ctx.terminator? b = .ok none)
    (called : ctx.checkCall callee args = .ok signature)
    (inScope : ctx.checkOperandScope b args = .ok ())
    (indirect : ∀ target, ctx.function ⟨callee⟩ ≠ .ok target) :
    ∃ c ctx', (createCall callee args "" b ctx).result = .ok (c, ctx') ∧
      ctx'.instruction c.toInstruction = .ok ⟨b, .call callee args .c⟩ := by
  obtain ⟨⟨r, read⟩, _, result, params, variadic, signed⟩ := checkCall_live called
  obtain ⟨br, held⟩ := block_of_terminator? opened
  have direct : ctx.checkDirectCallee callee b = .ok () :=
    checkDirectCallee_eq_ok.mpr ⟨r, br, read, held, fun target caller kind _ =>
      absurd (function_eq_ok.mpr ⟨r, read, kind⟩) (indirect target)⟩
  exact ⟨_, _, createCall_unnamed wf opened called signed direct inScope,
    instruction_addInstruction.mpr (.inr ⟨rfl, rfl⟩)⟩

end Build

/-- The callee of a requested call, when it is no function itself and no argument either. -/
def Request.CallsIndirectly (ctx : Context) (u : ValueRef) : Request → Prop
  | createCall callee args _ _ =>
    u = callee ∧ u ∉ args ∧ ∀ target, ctx.function ⟨callee⟩ ≠ .ok target
  | _ => False

namespace World

open Context

variable {w : World} {ctx : Context}

/-- Whatever request places an instruction in a function, its operands are in scope there, but for
the callee of an indirect call; and with such a callee the call goes through wherever it belongs. -/
theorem placed_operands_inScope (reachable : w.Reachable) (mem : ctx ∈ w.contexts) :
    (∀ (request : Request) answers ctx', (∀ h ∈ request.handles, h ∈ w.handles) →
      (request.run ctx).result = .ok (answers, ctx') →
      ∀ i r f, ctx'.PlacedIn i r f → (¬∃ r, ctx.PlacedIn i r f) →
        ∃ fr, ctx'.function f = .ok fr ∧ ∀ u ∈ r.operation.operands,
          ctx'.InScope fr.module f u ∨ request.CallsIndirectly ctx u) ∧
    (∀ callee args b signature, ctx.terminator? b = .ok none →
      ctx.checkCall callee args = .ok signature → ctx.checkOperandScope b args = .ok () →
      (∀ target, ctx.function ⟨callee⟩ ≠ .ok target) →
      ∃ c ctx', (Build.createCall callee args "" b ctx).result = .ok (c, ctx') ∧
        ctx'.instruction c.toInstruction = .ok ⟨b, .call callee args .c⟩) := by
  have wf := reachable.sound.wellFormed ctx mem
  refine ⟨?_, fun callee args b signature opened called inScope indirect =>
    Build.createCall_runs wf opened called inScope indirect⟩
  intro request answers ctx' known run i r f placed fresh
  have admitted : ∀ h ∈ request.handles, ctx.Admits h := fun h given =>
    reachable.sound.admits mem (reachable.sound.handles h (known h given))
  obtain ⟨effect, wf', _⟩ := Request.effect wf admitted run
  cases request with
  | createCall callee args name b =>
    obtain ⟨c, built, rfl⟩ := Request.answer_eq_ok run
    obtain ⟨appends, into, usable⟩ := Build.createCall_usable wf
      (fun u given => admitted _ (List.mem_cons_of_mem _ (List.mem_map_of_mem given))) built
    exact appends.operands_inScope wf into usable placed fresh
  | createReturn value b =>
    obtain ⟨c, built, rfl⟩ := Request.answer_eq_ok run
    obtain ⟨appends, _, into, usable⟩ := Build.createReturn_spec wf
      (fun u given => admitted _ (List.mem_cons_of_mem _
        (List.mem_map_of_mem (Option.mem_toList.mpr given)))) built
    exact appends.operands_inScope wf into
      (fun u operand => .inl (usable u (Option.mem_toList.mp operand))) placed fresh
  | createCondBranch cond ifTrue ifFalse b =>
    obtain ⟨c, built, rfl⟩ := Request.answer_eq_ok run
    obtain ⟨appends, _, into, _, usable⟩ := Build.createCondBranch_spec wf
      ⟨admitted _ (by simp [Request.handles]), admitted _ (by simp [Request.handles]),
        admitted _ (by simp [Request.handles])⟩ built
    refine appends.operands_inScope wf into (fun u operand => .inl ?_) placed fresh
    obtain rfl := List.mem_singleton.mp operand
    exact usable
  | createBranch target b =>
    obtain ⟨⟨j, appends⟩, _⟩ := effect
    rcases appends.placedIn wf placed with old | ⟨bare, br', read', parent'⟩
    · exact absurd old fresh
    · obtain ⟨fr, caller, _⟩ := wf'.block_listed read' parent'
      refine ⟨fr, caller, fun u operand => ?_⟩
      rw [Operation.operands_eq_of_bare bare] at operand
      cases operand
  | insertBlock b g before =>
    obtain ⟨built, rfl⟩ := Request.silent_eq_ok run
    obtain ⟨places, _, br, gr, read, caller, usable⟩ := Build.insertBlock_spec wf built
    obtain ⟨fr, caller', inScope⟩ := places.operands_inScope wf read caller (fun j listed => by
      obtain ⟨r', made, within⟩ := usable j listed
      refine ⟨r', made, fun u operand => ?_⟩
      obtain ⟨anchor, home, fits⟩ := within u operand
      exact ⟨anchor, anchored_of_anchor home, fits⟩) placed fresh
    exact ⟨fr, caller', fun u operand => .inl (inScope u operand)⟩
  | eraseModule m => exact absurd ⟨r, Erases.placedIn effect placed⟩ fresh
  | _ => exact absurd (Extends.placedIn effect wf placed) fresh

/-- A block of the first module is open, and the second module has a global of function type. -/
def foreignCallee : World := after [.context, .request 0 .voidType,
  .request 0 (.functionType ⟨⟨1⟩, 0⟩ [] false), .request 0 (.createModule ""),
  .request 0 (.createModule ""), .upcast (.type .any ⟨⟨1⟩, 1⟩),
  .request 0 (.createGlobal ⟨⟨1⟩, 1⟩ { type := ⟨⟨1⟩, 1⟩ }),
  .request 0 (.createFunction ⟨⟨⟨1⟩, 1⟩⟩ .external "" ⟨⟨1⟩, 0⟩),
  .request 0 (.createBlock "" (some ⟨⟨⟨1⟩, 1⟩⟩) none), .upcast (.value .any ⟨⟨1⟩, 0⟩)]

theorem foreignCallee_not_inScope : ∃ ctx ∈ foreignCallee.contexts, ∃ answers ctx' i r,
    ((Request.createCall ⟨⟨1⟩, 0⟩ [] "" ⟨⟨1⟩, 0⟩).run ctx).result = .ok (answers, ctx') ∧
      ctx'.PlacedIn i r ⟨⟨⟨1⟩, 1⟩⟩ ∧ ⟨⟨1⟩, 0⟩ ∈ r.operation.operands ∧
        ¬ctx'.InScope ⟨⟨1⟩, 0⟩ ⟨⟨⟨1⟩, 1⟩⟩ ⟨⟨1⟩, 0⟩ ∧
          (Request.createCall ⟨⟨1⟩, 0⟩ [] "" ⟨⟨1⟩, 0⟩).CallsIndirectly ctx ⟨⟨1⟩, 0⟩ := by
  have computed : (foreignCallee.contexts[0]?).any (fun ctx : Context =>
      ((Request.createCall ⟨⟨1⟩, 0⟩ [] "" ⟨⟨1⟩, 0⟩).run ctx).result.toOption.any fun out =>
        out.2.instruction ⟨⟨⟨1⟩, 2⟩⟩ = .ok ⟨⟨⟨1⟩, 0⟩, .call ⟨⟨1⟩, 0⟩ [] .c⟩ ∧
          (out.2.block ⟨⟨1⟩, 0⟩).map (·.parent) = .ok (some ⟨⟨⟨1⟩, 1⟩⟩) ∧
          (ctx.instruction ⟨⟨⟨1⟩, 2⟩⟩).toBool = false ∧
          (out.2.global ⟨⟨⟨1⟩, 0⟩⟩).map (·.module) = .ok ⟨⟨1⟩, 1⟩ ∧
          (out.2.function ⟨⟨⟨1⟩, 1⟩⟩).map (·.module) = .ok ⟨⟨1⟩, 0⟩) = true := by decide +kernel
  obtain ⟨ctx, found, computed⟩ := (Option.any_eq_true _ _).mp computed
  obtain ⟨⟨answers, ctx'⟩, made, computed⟩ := (Option.any_eq_true _ _).mp computed
  have run := Checked.toOption_eq_some.mp made
  obtain ⟨made, placed, unplaced, global, caller⟩ := of_decide_eq_true computed
  obtain ⟨br, read, parent⟩ := Checked.map_eq_ok.mp placed
  obtain ⟨gr, stored, module⟩ := Checked.map_eq_ok.mp global
  obtain ⟨fr, known', home⟩ := Checked.map_eq_ok.mp caller
  obtain ⟨value, held, kind⟩ := global_eq_ok.mp stored
  have known : ∀ h ∈ (Request.createCall ⟨⟨1⟩, 0⟩ [] "" ⟨⟨1⟩, 0⟩).handles,
      h ∈ foreignCallee.handles := by decide +kernel
  have mem : ctx ∈ foreignCallee.contexts := List.mem_of_getElem? found
  have inside : ctx'.PlacedIn ⟨⟨⟨1⟩, 2⟩⟩ _ ⟨⟨⟨1⟩, 1⟩⟩ := ⟨made, br, read, parent⟩
  have outside : ¬ctx'.InScope ⟨⟨1⟩, 0⟩ ⟨⟨⟨1⟩, 1⟩⟩ ⟨⟨1⟩, 0⟩ := by
    rintro ⟨anchor, anchored, within⟩
    obtain rfl := (Anchored.global held kind).unique anchored
    have same : gr.module = ⟨⟨1⟩, 0⟩ := within
    rw [module] at same
    exact absurd same (by decide)
  have fresh : ¬∃ r, ctx.PlacedIn ⟨⟨⟨1⟩, 2⟩⟩ r ⟨⟨⟨1⟩, 1⟩⟩ := by
    rintro ⟨r, made', _⟩
    rw [made'] at unplaced
    cases unplaced
  have all := placed_operands_inScope (reachable_after (by decide +kernel)) mem
  obtain ⟨fr', caller', scopes⟩ := all.1 _ _ ctx' known run _ _ _ inside fresh
  obtain rfl := Checked.unique known' caller'
  have operand : ⟨⟨1⟩, 0⟩ ∈ (Operation.call ⟨⟨1⟩, 0⟩ [] .c).operands := by decide
  exact ⟨ctx, mem, _, ctx', _, _, run, inside, operand, outside,
    (scopes _ operand).resolve_left (by rwa [home])⟩

end World
end ModuleIR
