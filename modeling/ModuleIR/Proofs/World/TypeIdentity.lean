import ModuleIR.Proofs.Arena.TypeTrees
import ModuleIR.Proofs.World.Reachable

set_option autoImplicit false

/-!
# Identity of types

Two calls of type factories on one context, with any operations between them, answer one handle
exactly when they ask for types that are alike all the way down. The arena and the table of types are
inverse to each other in every reachable world, and no operation changes or removes a type.
-/
namespace ModuleIR

open Context

namespace Request

def shape? : Request → Option Shape
  | voidType => some .void
  | labelType => some .label
  | integerType bits => some (.integer bits)
  | pointerType pointee space => some (.pointer pointee space)
  | arrayType element length => some (.array element length)
  | functionType result params variadic => some (.function result params variadic)
  | _ => none

variable {ctx ctx' : Context} {request : Request} {shape : Shape} {answers : List Handle}

theorem mem_handles_of_shape? (asked : request.shape? = some shape) {u : TypeRef}
    (mem : u ∈ shape.inner) : .type .any u ∈ request.handles := by
  cases request <;> simp only [shape?, Option.some.injEq, reduceCtorEq] at asked <;> subst asked
  case pointerType | arrayType =>
    rw [List.mem_singleton.mp mem]
    exact List.mem_cons_self
  case functionType => exact List.mem_map_of_mem mem
  all_goals cases mem

/-- Behind its checks every type factory interns the shape it is asked for. -/
theorem internType_of_run (asked : request.shape? = some shape)
    (run : (request.run ctx).result = .ok (answers, ctx')) :
    ∃ view t, answers = [.type view t] ∧ (Build.internType shape ctx).result = .ok (t, ctx') := by
  cases request <;> simp only [shape?, Option.some.injEq, reduceCtorEq] at asked <;> subst asked
  case voidType | labelType =>
    obtain ⟨t, built, rfl⟩ := answer_eq_ok run
    exact ⟨_, t, rfl, built⟩
  case integerType =>
    obtain ⟨t, built, rfl⟩ := answer_eq_ok run
    simp only [Build.integerType, Build.bind_eq_ok, Build.require_eq_ok, Build.pure_eq_ok] at built
    obtain ⟨_, _, ⟨_, rfl⟩, type, mid, interned, rfl, rfl⟩ := built
    exact ⟨_, type, rfl, interned⟩
  case pointerType | arrayType | functionType =>
    obtain ⟨t, built, rfl⟩ := answer_eq_ok run
    simp only [Build.pointerType, Build.arrayType, Build.functionType, Build.bind_eq_ok,
      Build.read_eq_ok, Build.pure_eq_ok] at built
    obtain ⟨_, _, ⟨_, rfl⟩, type, mid, interned, rfl, rfl⟩ := built
    exact ⟨_, type, rfl, interned⟩

theorem shape_of_run (wf : ctx.WellFormed) (admitted : ∀ h ∈ request.handles, ctx.Admits h)
    (asked : request.shape? = some shape)
    (run : (request.run ctx).result = .ok (answers, ctx')) :
    ∃ view t, answers = [.type view t] ∧ ctx'.WellFormed ∧ ctx.KeepsTypes ctx' ∧
      ctx'.shape t = .ok shape ∧ ∀ u ∈ shape.inner, ctx.HasType u := by
  obtain ⟨view, t, rfl, interned⟩ := internType_of_run asked run
  have known (u : TypeRef) (mem : u ∈ shape.inner) : ctx.Admits (.type .any u) :=
    admitted _ (mem_handles_of_shape? asked mem)
  obtain ⟨e, wf', shaped⟩ := Build.internType_spec wf known interned
  refine ⟨view, t, rfl, wf', e.toGrows.keepsTypes, shaped, fun u mem => ?_⟩
  simp only [Build.internType, Build.bind_eq_ok, Build.read_eq_ok] at interned
  obtain ⟨_, _, ⟨owned, rfl⟩, _⟩ := interned
  rw [Checked.forM_eq_ok] at owned
  obtain ⟨s, read, _⟩ := (known u mem).type (checkOwner_eq_ok.mp (owned u mem))
  exact ⟨s, read⟩

theorem keepsTypes (wf : ctx.WellFormed) (admitted : ∀ h ∈ request.handles, ctx.Admits h)
    (run : (request.run ctx).result = .ok (answers, ctx')) : ctx.KeepsTypes ctx' := by
  obtain ⟨effect, _⟩ := Request.effect wf admitted run
  rcases effect.grows_or_erases with grows | ⟨m, _, erases⟩
  · exact grows.keepsTypes
  · exact ⟨erases.id, fun i shape stored => by rw [erases.entombs.types]; exact stored⟩

end Request

namespace World

/-- A type factory is called on the context at `k`. It is asked for a type of the form `tree`, and
answers `t`. -/
inductive TypeCall (w : World) (k : Nat) : TypeTree → TypeRef → World → Prop
  | call {ctx ctx' : Context} {request : Request} {shape : Shape} {view : TypeView} {t : TypeRef}
      (found : w.contexts[k]? = some ctx) (known : ∀ h ∈ request.handles, h ∈ w.handles)
      (asked : request.shape? = some shape)
      (run : (request.run ctx).result = .ok ([.type view t], ctx')) :
      TypeCall w k (shape.tree ctx.tree) t
        { contexts := w.contexts.set k ctx', handles := w.handles ++ [.type view t] }

variable {w w' w₁ w₂ w₃ : World} {k : Nat} {ctx : Context} {tree tree' : TypeTree} {t t' : TypeRef}

theorem TypeCall.step (call : w.TypeCall k tree t w') : w.Step w' := by
  cases call with
  | call found known _ run => exact .request found known run

theorem TypeCall.answered (call : w.TypeCall k tree t w') (reachable : w.Reachable) :
    ∃ ctx', w'.contexts[k]? = some ctx' ∧ ctx'.HasType t ∧ ctx'.tree t = tree := by
  cases call with
  | @call ctx ctx' request shape view _ found known asked run =>
    have sound := reachable.sound
    have mem : ctx ∈ w.contexts := List.mem_of_getElem? found
    have wf := sound.wellFormed ctx mem
    obtain ⟨_, _, same, wf', kept, shaped, inner⟩ :=
      Request.shape_of_run wf (sound.admits_known mem known) asked run
    obtain ⟨_, rfl⟩ := Handle.type.inj (List.cons.inj same).1
    have inside : k < w.contexts.length := (List.getElem?_eq_some_iff.mp found).1
    refine ⟨ctx', List.getElem?_set_self inside, ⟨shape, shaped⟩, ?_⟩
    rw [wf'.tree_eq shaped]
    exact Shape.tree_congr fun u mem => wf.tree_kept wf' kept (inner u mem)

/-- Through any sequence of operations the types of a context stay, with the types inside them. -/
theorem types_of_steps (reachable : w.Reachable) (steps : Relation.ReflTransGen Step w w')
    (found : w.contexts[k]? = some ctx) :
    w'.Reachable ∧ ∃ ctx', w'.contexts[k]? = some ctx' ∧ ∀ t shape, ctx.shape t = .ok shape →
      ctx'.shape t = .ok shape ∧ ctx'.tree t = ctx.tree t := by
  obtain ⟨reachable', ctx', found', kept⟩ := relates_of_steps (R := KeepsTypes)
    (fun reachable mem known run => by
      have sound := reachable.sound
      exact Request.keepsTypes (sound.wellFormed _ mem) (sound.admits_known mem known) run)
    reachable steps found
  have wf := reachable.sound.wellFormed ctx (List.mem_of_getElem? found)
  have wf' := reachable'.sound.wellFormed ctx' (List.mem_of_getElem? found')
  exact ⟨reachable', ctx', found', fun t shape read =>
    ⟨kept.shape read, wf.tree_kept wf' kept ⟨shape, read⟩⟩⟩

theorem TypeCall.eq_iff (reachable : w.Reachable) (call : w.TypeCall k tree t w₁)
    (steps : Relation.ReflTransGen Step w₁ w₂) (call' : w₂.TypeCall k tree' t' w₃) :
    t = t' ↔ tree = tree' := by
  have reachable₁ := reachable.step call.step
  obtain ⟨ctx₁, found₁, ⟨shape, read⟩, rfl⟩ := call.answered reachable
  obtain ⟨reachable₂, _⟩ := types_of_steps reachable₁ steps found₁
  obtain ⟨reachable₃, ctx₃, found₃, kept⟩ := types_of_steps reachable₁ (steps.tail call'.step) found₁
  obtain ⟨ctx₃', found₃', has', rfl⟩ := call'.answered reachable₂
  obtain rfl := Option.some.inj (found₃.symm.trans found₃')
  obtain ⟨read', same⟩ := kept t shape read
  have wf := reachable₃.sound.wellFormed ctx₃ (List.mem_of_getElem? found₃)
  rw [← same]
  exact ⟨fun h => h ▸ rfl, wf.tree_injective ⟨shape, read'⟩ t' has'⟩

/-- Types are uniqued over whole runs. The table maps a shape to a handle exactly when the entry of
the handle has that shape, no shape stands twice in the arena, and the types that are counted are as
many as there are different trees. Shapes stay through all later operations, erasures among them, and
of two calls of type factories, with any operations between, the handles are the same exactly when
the types asked for are alike all the way down. -/
theorem types_unique_over_runs (reachable : w.Reachable) (found : w.contexts[k]? = some ctx) :
    (∀ shape t, ctx.typeTable.find? shape = some t ↔
      t.ctx = ctx.id ∧ ctx.types[t.index]? = some shape) ∧
    (∀ (i j : Nat) shape, ctx.types[i]? = some shape → ctx.types[j]? = some shape → i = j) ∧
    (∀ t shape, ctx.shape t = .ok shape → ctx.tree t = shape.tree ctx.tree) ∧
    (∃ trees : List TypeTree, trees.Nodup ∧ trees.length = ctx.numTypes ∧
      ∀ tree, tree ∈ trees ↔ ∃ t, ctx.HasType t ∧ ctx.tree t = tree) ∧
    (∀ later, Relation.ReflTransGen Step w later → ∃ ctx', later.contexts[k]? = some ctx' ∧
      ∀ t shape, ctx.shape t = .ok shape →
        ctx'.shape t = .ok shape ∧ ctx'.tree t = ctx.tree t) ∧
    (∀ tree t w₁, w.TypeCall k tree t w₁ →
      ∃ ctx₁, w₁.contexts[k]? = some ctx₁ ∧ ctx₁.HasType t ∧ ctx₁.tree t = tree) ∧
    ∀ tree tree' t t' w₁ w₂ w₃, w.TypeCall k tree t w₁ → Relation.ReflTransGen Step w₁ w₂ →
      w₂.TypeCall k tree' t' w₃ → (t = t' ↔ tree = tree') := by
  have wf := reachable.sound.wellFormed ctx (List.mem_of_getElem? found)
  refine ⟨fun shape t => (wf.typeTable shape t).trans shape_eq_ok, fun i j shape stored stored' => ?_,
    fun t shape read => wf.tree_eq read, wf.trees,
    fun later steps => (types_of_steps reachable steps found).2,
    fun tree t w₁ call => call.answered reachable,
    fun tree tree' t t' w₁ w₂ w₃ call steps call' => call.eq_iff reachable steps call'⟩
  have at' {i : Nat} (stored : ctx.types[i]? = some shape) :
      ctx.typeTable.find? shape = some ⟨ctx.id, i⟩ :=
    (wf.typeTable shape ⟨ctx.id, i⟩).mpr (shape_eq_ok.mpr ⟨rfl, stored⟩)
  exact congrArg TypeRef.index (Option.some.inj ((at' stored).symm.trans (at' stored')))

theorem TypeCall.of_perform {request : Request} {shape : Shape}
    (done : w.perform (.request k request) = some w') (found : w.contexts[k]? = some ctx)
    (asked : request.shape? = some shape) : ∃ t, w.TypeCall k (shape.tree ctx.tree) t w' := by
  obtain ⟨_, answers, ctx', found', known, run, rfl⟩ := request_of_perform done
  obtain rfl := Option.some.inj (found.symm.trans found')
  obtain ⟨view, t, rfl, _⟩ := Request.internType_of_run asked run
  exact ⟨t, .call found known asked run⟩

/-- A byte type, and a module that is erased between two calls for the pointer to a byte. -/
def bytePointer (more : List Action) : World := after ([.context, .request 0 (.integerType 8),
  .upcast (.type .any ⟨⟨1⟩, 0⟩), .request 0 (.createModule "m")] ++ more)

theorem bytePointer_again : ∃ w₁ w₂ w₃ t t',
    (bytePointer []).TypeCall 0 (.pointer (.integer 8) .generic) t w₁ ∧ w₁.Step w₂ ∧
      w₂.TypeCall 0 (.pointer (.integer 8) .generic) t' w₃ ∧ t = t' := by
  let call : Action := .request 0 (.pointerType ⟨⟨1⟩, 0⟩ .generic)
  let erase : Action := .request 0 (.eraseModule ⟨⟨1⟩, 0⟩)
  have first : (bytePointer []).perform call = some (bytePointer [call]) := by decide +kernel
  have erased : (bytePointer [call]).perform erase = some (bytePointer [call, erase]) := by
    decide +kernel
  have again : (bytePointer [call, erase]).perform call =
      some (bytePointer [call, erase, call]) := by decide +kernel
  have computed : ∀ w ∈ [bytePointer [], bytePointer [call, erase]],
      (w.contexts[0]?).any (fun ctx : Context => ctx.types[0]? = some (.integer 8) ∧ ctx.id = ⟨1⟩) = true := by
    decide +kernel
  have byte (w : World) (mem : w ∈ [bytePointer [], bytePointer [call, erase]]) :
      ∃ ctx, w.contexts[0]? = some ctx ∧
        (Shape.pointer ⟨⟨1⟩, 0⟩ .generic).tree ctx.tree = .pointer (.integer 8) .generic := by
    obtain ⟨ctx, found, computed⟩ := (Option.any_eq_true _ _).mp (computed w mem)
    obtain ⟨stored, id⟩ := of_decide_eq_true computed
    have read : ctx.shape ⟨⟨1⟩, 0⟩ = .ok (.integer 8) := shape_eq_ok.mpr ⟨id.symm, stored⟩
    have tree : ctx.tree ⟨⟨1⟩, 0⟩ = .integer 8 := treeWithin_succ read
    exact ⟨ctx, found, congrArg (TypeTree.pointer · .generic) tree⟩
  obtain ⟨ctx, found, tree⟩ := byte (bytePointer []) (by simp)
  obtain ⟨ctx₂, found₂, tree₂⟩ := byte (bytePointer [call, erase]) (by simp)
  obtain ⟨t, called⟩ := TypeCall.of_perform first found rfl
  obtain ⟨t', called'⟩ := TypeCall.of_perform again found₂ rfl
  rw [tree] at called
  rw [tree₂] at called'
  have between := step_of_perform erased
  have unique := (types_unique_over_runs (reachable_after (by decide +kernel)) found).2.2.2.2.2.2
  exact ⟨_, _, _, t, t', called, between, called',
    (unique _ _ t t' _ _ _ called (.single between) called').mpr rfl⟩

end World
end ModuleIR
