import ModuleIR.Proofs.Steps.Building
import ModuleIR.Proofs.World.Permanence

set_option autoImplicit false

/-!
# Ownership is a forest

Modules list globals and functions, functions list arguments and blocks, blocks list instructions, and
whatever is listed records who lists it. In every context of a reachable world the lists and the
records agree, and as long as an owner lives its lists only grow, in the order they have.
-/
namespace ModuleIR

namespace Context

/-- Owners with their lists, and entities with their homes: what is listed is alive, a home is alive,
and of all lists that of the home has the entity once and no other has it. -/
structure Owning {Owner Entity OwnerRecord EntityRecord : Type} [DecidableEq Owner]
    [DecidableEq Entity] (owner : Owner → Checked OwnerRecord) (list : OwnerRecord → List Entity)
    (entity : Entity → Checked EntityRecord) (home : EntityRecord → Option Owner) : Prop where
  listed : ∀ a r x, owner a = .ok r → x ∈ list r → ∃ s, entity x = .ok s
  alive : ∀ x s a, entity x = .ok s → home s = some a → ∃ r, owner a = .ok r
  count : ∀ x s a r, entity x = .ok s → owner a = .ok r →
    (list r).count x = if home s = some a then 1 else 0

structure Forest (ctx : Context) : Prop where
  globals : Owning ctx.module (·.globals) ctx.global (some ·.module)
  functions : Owning ctx.module (·.functions) ctx.function (some ·.module)
  args : Owning ctx.function (·.args) ctx.argument (some ·.parent)
  blocks : Owning ctx.function (·.blocks) ctx.block (·.parent)
  instructions : Owning ctx.block (·.instructions) ctx.instruction (some ·.parent)
  parameters : ∀ f fr, ctx.function f = .ok fr → ctx.TakesParameters f fr

/-- Each owner was erased, or it lists what it listed in the same order, maybe with more between. -/
structure InsertsOnly (ctx ctx' : Context) : Prop where
  retains : ctx.Retains ctx'
  modules : ∀ m r, ctx.module m = .ok r → ctx'.Tombstone (.module m) ∨
    ∃ r', ctx'.module m = .ok r' ∧ r.globals.Sublist r'.globals ∧ r.functions.Sublist r'.functions
  functions : ∀ f r, ctx.function f = .ok r → ctx'.Tombstone (.value .function f.value) ∨
    ∃ r', ctx'.function f = .ok r' ∧ r'.args = r.args ∧ r.blocks.Sublist r'.blocks
  blocks : ∀ b r, ctx.block b = .ok r → ctx'.Tombstone (.block b) ∨
    ∃ r', ctx'.block b = .ok r' ∧ r.instructions.Sublist r'.instructions

variable {ctx ctx' ctx'' : Context}

/-! ### Lists and homes -/

/-- Lists without repetitions and records that point to each other agree. -/
theorem owning_of_nodup {Owner Entity OwnerRecord EntityRecord : Type} [DecidableEq Owner]
    [DecidableEq Entity] {owner : Owner → Checked OwnerRecord} {list : OwnerRecord → List Entity}
    {entity : Entity → Checked EntityRecord} {home : EntityRecord → Option Owner}
    (listed : ∀ {a r x}, owner a = .ok r → x ∈ list r → ∃ s, entity x = .ok s ∧ home s = some a)
    (back : ∀ {x s a}, entity x = .ok s → home s = some a → ∃ r, owner a = .ok r ∧ x ∈ list r)
    (nodup : ∀ {a r}, owner a = .ok r → (list r).Nodup) : Owning owner list entity home where
  listed a r x read mem := (listed read mem).imp fun _ => And.left
  alive x s a read same := (back read same).imp fun _ => And.left
  count x s a r read read' := by
    rw [(nodup read').count]
    congr 1
    refine propext ⟨fun mem => ?_, fun same => ?_⟩
    · obtain ⟨s', again, same⟩ := listed read' mem
      rwa [Checked.unique again read] at same
    · obtain ⟨r', again, mem⟩ := back read same
      rwa [Checked.unique again read'] at mem

theorem TakesParameters.nodup {f : FunctionRef} {fr : FunctionRecord}
    (h : ctx.TakesParameters f fr) : fr.args.Nodup := by
  obtain ⟨_, _, _, _, _, each⟩ := h
  rw [List.nodup_iff_getElem?_ne_getElem?]
  intro j k before inside same
  obtain ⟨a, place⟩ : ∃ a, fr.args[k]? = some a := ⟨_, List.getElem?_eq_getElem inside⟩
  obtain ⟨r, read, _, kind⟩ := each k a place
  obtain ⟨r', read', _, kind'⟩ := each j a (same.trans place)
  rw [Checked.unique read' read, kind] at kind'
  exact absurd (ArgumentRecord.mk.inj (ValueKind.argument.inj kind')).2 (by omega)

theorem WellFormed.forest (wf : ctx.WellFormed)
    (parameters : ∀ f fr, ctx.function f = .ok fr → ctx.TakesParameters f fr) : ctx.Forest where
  globals := owning_of_nodup
    (fun read mem => (wf.module_global read mem).imp fun _ h => ⟨h.1, congrArg some h.2⟩)
    (fun read same => Option.some.inj same ▸ wf.global_listed read)
    fun read => (wf.moduleSound read).globalsNodup
  functions := owning_of_nodup
    (fun read mem => (wf.module_function read mem).imp fun _ h => ⟨h.1, congrArg some h.2⟩)
    (fun read same => Option.some.inj same ▸ wf.function_listed read)
    fun read => (wf.moduleSound read).functionsNodup
  args := owning_of_nodup
    (fun read mem => (wf.function_argument read mem).imp fun _ h => ⟨h.1, congrArg some h.2⟩)
    (fun read same => Option.some.inj same ▸ wf.argument_listed read)
    fun read => (parameters _ _ read).nodup
  blocks := owning_of_nodup (fun read mem => wf.function_block read mem)
    (fun read same => wf.block_listed read same) fun read => (wf.functionSound read).blocksNodup
  instructions := owning_of_nodup
    (fun read mem => (wf.block_instruction read mem).imp fun _ h => ⟨h.1, congrArg some h.2⟩)
    (fun read same => Option.some.inj same ▸ wf.instruction_listed read)
    fun read => (wf.blockSound read).nodup
  parameters := parameters

/-! ### Values are well made -/

def AllWellMade (ctx : Context) : Prop := ∀ v r, ctx.value v = .ok r → ctx.WellMade v r

theorem allWellMade_new (id : ContextId) : (Context.new id).AllWellMade := by
  intro v r read
  simp [Context.new, value_eq_ok] at read

theorem AllWellMade.elementary (h : ctx.AllWellMade) (e : ctx.Elementary ctx') :
    ctx'.AllWellMade := by
  intro v r' read'
  rcases e.value_cases read' with ⟨r, read, type, step⟩ | ⟨_, made⟩
  · exact (h v r read).grow e.grows type step
  · exact made

theorem AllWellMade.erase (h : ctx.AllWellMade) (wf' : ctx'.WellFormed) {m : ModuleRef}
    (e : ctx.Erases m ctx') : ctx'.AllWellMade := by
  intro v r read'
  obtain ⟨suits, takes⟩ := h v r (e.value.mp read').1
  have base : ∀ p, r.kind = .elementPtr p → ctx'.value p.base = ctx.value p.base := by
    intro p kind
    obtain ⟨br, alive, _⟩ := (wf'.elementPtrSound read' kind).base
    exact alive.trans (e.value.mp alive).1.symm
  refine ⟨suits.survive e.shape base, fun fr kind => ?_⟩
  obtain ⟨result, params, variadic, shaped, count, each⟩ := takes fr kind
  refine ⟨result, params, variadic, (e.shape _).trans shaped, count, fun k a place => ?_⟩
  obtain ⟨ar, read, type, argument⟩ := each k a place
  have known : ctx'.function ⟨v⟩ = .ok fr := function_eq_ok.mpr ⟨r, read', kind⟩
  obtain ⟨_, live, _⟩ := wf'.function_argument known (List.mem_of_getElem? place)
  obtain ⟨ar', alive, _⟩ := argument_eq_ok.mp live
  obtain rfl := Checked.unique (e.value.mp alive).1 read
  exact ⟨ar', alive, type, argument⟩

/-! ### Lists through changes -/

namespace InsertsOnly

theorem of_grows (g : ctx.Grows ctx') : ctx.InsertsOnly ctx' where
  retains := g.retains
  modules m r read := by
    obtain ⟨r', read', step⟩ := g.module read
    exact .inr ⟨r', read', step.globals, step.functions.sublist⟩
  functions f r read := by
    obtain ⟨r', read', _, _, args, blocks⟩ := g.function read
    exact .inr ⟨r', read', args, blocks⟩
  blocks b r read := by
    obtain ⟨r', read', step⟩ := g.block read
    exact .inr ⟨r', read', step.instructions.sublist⟩

instance : Std.Refl InsertsOnly := ⟨fun ctx => of_grows (.refl ctx)⟩

instance : IsTrans Context InsertsOnly where
  trans _ _ _ h h' := {
    retains := fun handle gone => h'.retains handle (h.retains handle gone)
    modules := fun m r read => by
      rcases h.modules m r read with gone | ⟨r', read', globals, functions⟩
      · exact .inl (h'.retains _ gone)
      · exact (h'.modules m r' read').imp_right fun ⟨r'', read'', globals', functions'⟩ =>
          ⟨r'', read'', globals.trans globals', functions.trans functions'⟩
    functions := fun f r read => by
      rcases h.functions f r read with gone | ⟨r', read', args, blocks⟩
      · exact .inl (h'.retains _ gone)
      · exact (h'.functions f r' read').imp_right fun ⟨r'', read'', args', blocks'⟩ =>
          ⟨r'', read'', args'.trans args, blocks.trans blocks'⟩
    blocks := fun b r read => by
      rcases h.blocks b r read with gone | ⟨r', read', instructions⟩
      · exact .inl (h'.retains _ gone)
      · exact (h'.blocks b r' read').imp_right fun ⟨r'', read'', instructions'⟩ =>
          ⟨r'', read'', instructions.trans instructions'⟩ }

theorem of_erases (wf : ctx.WellFormed) {m : ModuleRef} {mr : ModuleRecord}
    (live : ctx.module m = .ok mr) (e : ctx.Erases m ctx') : ctx.InsertsOnly ctx' where
  retains h gone := (e.tombstone_iff wf live).mpr (.inl gone)
  modules n r read := by
    by_cases same : n = m
    · exact .inl ((e.tombstone_iff wf live).mpr (.inr same))
    · exact .inr ⟨r, e.module.mpr ⟨read, same⟩, .refl _, .refl _⟩
  functions f r read := by
    by_cases goes : r.module = m
    · have owned := (owns_iff wf live).mpr ((belongsTo_function read).mpr goes)
      exact .inl ((e.tombstone_iff wf live).mpr (.inr owned))
    · exact .inr ⟨r, e.function.mpr ⟨read, goes⟩, rfl, .refl _⟩
  blocks b r read := by
    by_cases goes : ctx.BlockBelongsTo m b
    · exact .inl ((e.tombstone_iff wf live).mpr (.inr ((ownsBlock_iff wf live).mpr goes)))
    · exact .inr ⟨r, e.block.mpr ⟨read, goes⟩, .refl _⟩

end InsertsOnly
end Context

open Context

theorem Request.insertsOnly {ctx ctx' : Context} (wf : ctx.WellFormed) {request : Request}
    {answers : List Handle} (run : (request.run ctx).result = .ok (answers, ctx')) :
    ctx.InsertsOnly ctx' := by
  rcases Request.builds_or_erases wf run with builds | ⟨m, mr, _, live, erases⟩
  · exact .of_grows builds.grows
  · exact .of_erases wf live erases

namespace World

variable {w w' : World} {ctx : Context} {k : Nat}

theorem Reachable.allWellMade (reachable : w.Reachable) : ∀ ctx ∈ w.contexts, ctx.AllWellMade :=
  reachable.invariant_of_elementary allWellMade_new (fun _ _ step before => before.elementary step)
    fun _ _ _ _ wf' erases before => before.erase wf' erases

/-- In a reachable world every context is a forest of owners and what they own, whose lists are only
ever inserted into. -/
theorem ownership_forest (reachable : w.Reachable) (found : w.contexts[k]? = some ctx) :
    ctx.Forest ∧ ∀ later, Relation.ReflTransGen Step w later →
      ∃ ctx', later.contexts[k]? = some ctx' ∧ ctx.InsertsOnly ctx' := by
  have mem : ctx ∈ w.contexts := List.mem_of_getElem? found
  constructor
  · refine (reachable.sound.wellFormed ctx mem).forest fun f fr known => ?_
    obtain ⟨r, read, kind⟩ := function_eq_ok.mp known
    exact (reachable.allWellMade ctx mem f.value r read).2 fr kind
  · intro later steps
    refine (relates_of_steps (fun reachable mem _ run => ?_) reachable steps found).2
    exact Request.insertsOnly (reachable.sound.wellFormed _ mem) run

/-- A block that was filled while detached, inserted in front of one that was there. -/
def insertedFirst : World := after [.context, .request 0 .voidType, .request 0 (.integerType 32),
  .upcast (.type .any ⟨⟨1⟩, 1⟩), .request 0 (.functionType ⟨⟨1⟩, 0⟩ [⟨⟨1⟩, 1⟩, ⟨⟨1⟩, 1⟩] false),
  .request 0 (.createModule "m"),
  .request 0 (.createFunction ⟨⟨⟨1⟩, 2⟩⟩ .external "f" ⟨⟨1⟩, 0⟩),
  .request 0 (.createBlock "last" (some ⟨⟨⟨1⟩, 0⟩⟩) none), .request 0 (.createBlock "" none none),
  .request 0 (.createReturn none ⟨⟨1⟩, 1⟩),
  .request 0 (.insertBlock ⟨⟨1⟩, 1⟩ ⟨⟨⟨1⟩, 0⟩⟩ (some ⟨⟨1⟩, 0⟩))]

theorem insertedFirst_forest : ∃ ctx fr, insertedFirst.contexts[0]? = some ctx ∧
    ctx.function ⟨⟨⟨1⟩, 0⟩⟩ = .ok fr ∧ fr.args.length = 2 ∧ fr.blocks = [⟨⟨1⟩, 1⟩, ⟨⟨1⟩, 0⟩] ∧
      ctx.Forest ∧ ∀ later, Relation.ReflTransGen Step insertedFirst later →
        ∃ ctx', later.contexts[0]? = some ctx' ∧ ctx.InsertsOnly ctx' := by
  have computed : (insertedFirst.contexts[0]?).any (fun ctx : Context =>
      (ctx.function ⟨⟨⟨1⟩, 0⟩⟩).toOption.any fun fr =>
        fr.args.length = 2 ∧ fr.blocks = [⟨⟨1⟩, 1⟩, ⟨⟨1⟩, 0⟩]) = true := by decide +kernel
  obtain ⟨ctx, found, computed⟩ := (Option.any_eq_true _ _).mp computed
  obtain ⟨fr, read, computed⟩ := (Option.any_eq_true _ _).mp computed
  obtain ⟨args, blocks⟩ := of_decide_eq_true computed
  exact ⟨ctx, fr, found, Checked.toOption_eq_some.mp read, args, blocks,
    ownership_forest (reachable_after (by decide +kernel)) found⟩

end World
end ModuleIR
