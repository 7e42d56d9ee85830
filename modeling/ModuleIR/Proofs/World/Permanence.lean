import ModuleIR.Proofs.World.Placement
import ModuleIR.Proofs.World.Uniquing

set_option autoImplicit false

/-!
# Erasure is exact and permanent

The erasure of a live module goes through, makes tombstones of exactly what the module owns, and
changes nothing else. A tombstone stays one through every later operation, and what an operation
answers is alive, so that the handle of a tombstone is never handed out again.
-/
namespace ModuleIR

namespace Context

def Tombstone (ctx : Context) : Handle → Prop
  | .type _ _ => False
  | .value _ v => ctx.isErased v = .ok true
  | .block b => b.ctx = ctx.id ∧ ∃ r, ctx.blocks[b.index]? = some r ∧ r.erased = true
  | .module m => m.ctx = ctx.id ∧ ctx.modules[m.index]? = some none

/-- The module itself, or what it owns. -/
def OwnsHandle (ctx : Context) (m : ModuleRef) (mr : ModuleRecord) : Handle → Prop
  | .type _ _ => False
  | .value _ v => ctx.Owns mr v
  | .block b => ctx.OwnsBlock mr b
  | .module n => n = m

/-- The context after the erasure of a module, which leaves all but what the module owned as it is. -/
structure Loses (ctx : Context) (m : ModuleRef) (mr : ModuleRecord) (ctx' : Context) : Prop where
  tombstones : ∀ h, ctx'.Tombstone h ↔ ctx.Tombstone h ∨ ctx.OwnsHandle m mr h
  values : ∀ v, v.ctx = ctx.id → ¬ctx.Owns mr v → ctx'.values[v.index]? = ctx.values[v.index]?
  blocks : ∀ b, b.ctx = ctx.id → ¬ctx.OwnsBlock mr b → ctx'.blocks[b.index]? = ctx.blocks[b.index]?
  modules : ∀ n, n.ctx = ctx.id → n ≠ m → ctx'.modules[n.index]? = ctx.modules[n.index]?
  types : ctx'.types = ctx.types
  typeTable : ctx'.typeTable = ctx.typeTable
  constants : ∀ key v, (key, v) ∈ ctx'.constantTable.entries ↔
    (key, v) ∈ ctx.constantTable.entries ∧ ¬ctx.OwnsPointer mr v
  numConstants : ∃ gone : List ValueRef, gone.Nodup ∧ (∀ v, v ∈ gone ↔ ctx.OwnsPointer mr v) ∧
    ctx'.numConstants + gone.length = ctx.numConstants

variable {ctx ctx' ctx'' : Context} {m : ModuleRef} {mr : ModuleRecord} {h : Handle}

theorem isErased_iff {v : ValueRef} : ctx.isErased v = .ok true ↔
    v.ctx = ctx.id ∧ ∃ r, ctx.values[v.index]? = some r ∧ r.kind = .erased := by
  simp only [isErased_eq_ok, ValueKind.isErased_iff]

theorem Tombstone.not_lives (gone : ctx.Tombstone h) : ¬ctx.Lives h := by
  cases h with
  | type => exact gone.elim
  | value view v =>
    obtain ⟨_, r, stored, erased⟩ := isErased_iff.mp gone
    rintro ⟨r', read⟩
    obtain ⟨_, stored', live⟩ := value_eq_ok.mp read
    exact live (Option.some.inj (stored.symm.trans stored') ▸ erased)
  | block b =>
    obtain ⟨_, r, stored, erased⟩ := gone
    rintro ⟨r', read⟩
    obtain ⟨_, stored', live⟩ := block_eq_ok.mp read
    rw [← Option.some.inj (stored.symm.trans stored'), erased] at live
    cases live
  | module m =>
    rintro ⟨r, read⟩
    obtain ⟨_, stored⟩ := module_eq_ok.mp read
    rw [gone.2] at stored
    cases stored

theorem Tombstone.owner (gone : ctx.Tombstone h) : h.owner = ctx.id := by
  cases h with
  | type => exact gone.elim
  | value => exact (isErased_iff.mp gone).1
  | block | module => exact gone.1

/-! ### What an erasure leaves -/

namespace Erases

variable (e : ctx.Erases m ctx') (wf : ctx.WellFormed) (live : ctx.module m = .ok mr)
include e wf live

theorem tombstone_value {view : ValueView} {v : ValueRef} :
    ctx'.Tombstone (.value view v) ↔ ctx.Tombstone (.value view v) ∨ ctx.Owns mr v := by
  rw [owns_iff wf live]
  simp only [Tombstone, isErased_iff, e.id]
  constructor
  · rintro ⟨owner, r, stored, erased⟩
    have self : (⟨ctx.id, v.index⟩ : ValueRef) = v := by rw [← owner]
    by_cases goes : ctx.BelongsTo m v
    · exact .inr goes
    · rw [e.entombs.kept _ (self ▸ goes)] at stored
      exact .inl ⟨owner, r, stored, erased⟩
  · rintro (⟨owner, r, stored, erased⟩ | goes)
    · have stays : ¬ctx.BelongsTo m ⟨ctx.id, v.index⟩ := by
        intro belongs
        obtain ⟨r', read⟩ := belongs.live
        obtain ⟨_, stored', alive⟩ := value_eq_ok.mp read
        exact alive (Option.some.inj (stored.symm.trans stored') ▸ erased)
      exact ⟨owner, r, (e.entombs.kept _ stays).trans stored, erased⟩
    · obtain ⟨r, read⟩ := goes.live
      obtain ⟨owner, stored, _⟩ := value_eq_ok.mp read
      have entombed := e.entombs.values v.index (value_self read ▸ goes)
      exact ⟨owner, r.tombstone, by rw [entombed, stored]; rfl, rfl⟩

theorem tombstone_block {b : BlockRef} :
    ctx'.Tombstone (.block b) ↔ ctx.Tombstone (.block b) ∨ ctx.OwnsBlock mr b := by
  rw [ownsBlock_iff wf live]
  simp only [Tombstone, e.id]
  constructor
  · rintro ⟨owner, r, stored, erased⟩
    have self : (⟨ctx.id, b.index⟩ : BlockRef) = b := by rw [← owner]
    by_cases goes : ctx.BlockBelongsTo m b
    · exact .inr goes
    · rw [e.entombs.keptBlocks _ (self ▸ goes)] at stored
      exact .inl ⟨owner, r, stored, erased⟩
  · rintro (⟨owner, r, stored, erased⟩ | goes)
    · have stays : ¬ctx.BlockBelongsTo m ⟨ctx.id, b.index⟩ := by
        rintro ⟨r', f, fr, read, _⟩
        obtain ⟨_, stored', alive⟩ := block_eq_ok.mp read
        rw [← Option.some.inj (stored.symm.trans stored'), erased] at alive
        cases alive
      exact ⟨owner, r, (e.entombs.keptBlocks _ stays).trans stored, erased⟩
    · have ⟨r, f, fr, read, _⟩ := goes
      obtain ⟨owner, stored, _⟩ := block_eq_ok.mp read
      have entombed := e.entombs.blocks b.index (block_self read ▸ goes)
      exact ⟨owner, r.tombstone, by rw [entombed, stored]; rfl, rfl⟩

omit wf in
theorem tombstone_module {n : ModuleRef} :
    ctx'.Tombstone (.module n) ↔ ctx.Tombstone (.module n) ∨ n = m := by
  obtain ⟨_, stored⟩ := module_eq_ok.mp live
  simp only [Tombstone, e.id, e.modules, Array.getElem?_modify]
  by_cases same : n = m
  · subst same
    simp [e.owner, stored]
  · rw [or_iff_left same]
    refine and_congr_right fun owner => ?_
    have apart : m.index ≠ n.index := by
      intro index
      apply same
      rw [← module_self live, index, ← owner]
    rw [if_neg apart]

theorem tombstone_iff : ctx'.Tombstone h ↔ ctx.Tombstone h ∨ ctx.OwnsHandle m mr h := by
  cases h with
  | type => simp [Tombstone, OwnsHandle]
  | value => exact e.tombstone_value wf live
  | block => exact e.tombstone_block wf live
  | module => exact e.tombstone_module live

theorem loses (distinct : ctx.Distinct) (distinct' : ctx'.Distinct) : ctx.Loses m mr ctx' where
  tombstones _ := e.tombstone_iff wf live
  values v owner stays := by
    have self : (⟨ctx.id, v.index⟩ : ValueRef) = v := by rw [← owner]
    rw [owns_iff wf live, ← self] at stays
    exact e.entombs.kept v.index stays
  blocks b owner stays := by
    have self : (⟨ctx.id, b.index⟩ : BlockRef) = b := by rw [← owner]
    rw [ownsBlock_iff wf live, ← self] at stays
    exact e.entombs.keptBlocks b.index stays
  modules n owner other := by
    have apart : m.index ≠ n.index := by
      intro index
      apply other
      rw [← module_self live, index, ← owner]
    rw [e.modules, Array.getElem?_modify, if_neg apart]
  types := e.entombs.types
  typeTable := e.entombs.typeTable
  constants key v := by
    rw [e.constants]
    exact and_congr_right fun entry => not_congr (ownsPointer_of_entry wf live entry).symm
  numConstants := e.numConstants wf distinct distinct' live

end Erases

/-! ### Tombstones stay -/

def Retains (ctx ctx' : Context) : Prop := ∀ h, ctx.Tombstone h → ctx'.Tombstone h

instance : Std.Refl Retains := ⟨fun _ _ gone => gone⟩

instance : IsTrans Context Retains := ⟨fun _ _ _ first second h gone => second h (first h gone)⟩

theorem Grows.retains (g : ctx.Grows ctx') : ctx.Retains ctx' := by
  intro h gone
  cases h with
  | type => exact gone
  | value view v =>
    obtain ⟨owner, r, stored, erased⟩ := isErased_iff.mp gone
    obtain ⟨r', stored', _, step⟩ := g.values _ r stored
    exact isErased_iff.mpr ⟨owner.trans g.id.symm, r', stored', step.erased_iff.mpr erased⟩
  | block b =>
    obtain ⟨owner, r, stored, erased⟩ := gone
    obtain ⟨r', stored', step⟩ := g.blocks _ r stored
    exact ⟨owner.trans g.id.symm, r', stored', step.erased.trans erased⟩
  | module m => exact ⟨gone.1.trans g.id.symm, g.emptyModules _ gone.2⟩

end Context

open Context

/-- A request that succeeds takes no tombstone away, and answers none. -/
theorem Request.retains {ctx ctx' : Context} (wf : ctx.WellFormed) {request : Request}
    {answers : List Handle} (admitted : ∀ h ∈ request.handles, ctx.Admits h)
    (run : (request.run ctx).result = .ok (answers, ctx')) :
    ctx.Retains ctx' ∧ ∀ h ∈ answers, h.owner = ctx.id ∧ ¬ctx'.Tombstone h := by
  obtain ⟨effect, _, alive⟩ := Request.effect_reads wf admitted run
  constructor
  · rcases effect.grows_or_erases with grows | ⟨m, rfl, erases⟩
    · exact grows.retains
    · obtain ⟨built, _⟩ := Request.silent_eq_ok run
      obtain ⟨⟨mr, live⟩, _⟩ := Build.eraseModule_spec wf built
      exact fun h gone => (erases.tombstone_iff wf live).mpr (.inl gone)
  · intro h mem
    have reads := alive h mem
    exact ⟨reads.holds.1.trans effect.id, fun gone => gone.not_lives reads.lives⟩

namespace World

variable {w w' : World} {ctx ctx' : Context} {k : Nat} {m : ModuleRef} {mr : ModuleRecord}

theorem retains_of_steps (reachable : w.Reachable) (steps : Relation.ReflTransGen Step w w')
    (found : w.contexts[k]? = some ctx) :
    w'.Reachable ∧ ∃ ctx', w'.contexts[k]? = some ctx' ∧ ctx.Retains ctx' := by
  refine relates_of_steps (fun reachable mem known run => ?_) reachable steps found
  have sound := reachable.sound
  exact (Request.retains (sound.wellFormed _ mem) (sound.admits_known mem known) run).1

theorem not_answered (reachable : w.Reachable) (found : w.contexts[k]? = some ctx) {j : Nat}
    {c c' : Context} {request : Request} {answers : List Handle} (found' : w.contexts[j]? = some c)
    (known : ∀ h ∈ request.handles, h ∈ w.handles)
    (run : (request.run c).result = .ok (answers, c')) : ∀ h ∈ answers, ¬ctx.Tombstone h := by
  have sound := reachable.sound
  have mem : c ∈ w.contexts := List.mem_of_getElem? found'
  obtain ⟨kept, fresh⟩ :=
    Request.retains (sound.wellFormed c mem) (sound.admits_known mem known) run
  intro h answered gone
  obtain ⟨owner, alive⟩ := fresh h answered
  have same : c = ctx :=
    sound.unique mem (List.mem_of_getElem? found) (owner.symm.trans gone.owner)
  exact alive (kept h (same ▸ gone))

/-- The erasure of a live module goes through and is exact; what is erased after it stays erased in
every later world, and is never answered there. -/
theorem erasure_exact_and_permanent (reachable : w.Reachable) (found : w.contexts[k]? = some ctx)
    (live : ctx.module m = .ok mr) :
    ∃ ctx', ((Request.eraseModule m).run ctx).result = .ok ([], ctx') ∧ ctx.Loses m mr ctx' ∧
      ∀ later, Relation.ReflTransGen Step
          { contexts := w.contexts.set k ctx', handles := w.handles ++ [.module m] } later →
        (∃ c, later.contexts[k]? = some c ∧ ∀ h, ctx'.Tombstone h → c.Tombstone h) ∧
        ∀ (j : Nat) (c c' : Context) (request : Request) (answers : List Handle),
          later.contexts[j]? = some c → (∀ h ∈ request.handles, h ∈ later.handles) →
          (request.run c).result = .ok (answers, c') → ∀ h ∈ answers, ¬ctx'.Tombstone h := by
  have mem : ctx ∈ w.contexts := List.mem_of_getElem? found
  have inside : k < w.contexts.length := (List.getElem?_eq_some_iff.mp found).1
  have wf := reachable.sound.wellFormed ctx mem
  obtain ⟨ctx', erased, erases⟩ := Build.eraseModule_runs wf live
  have run : ((Request.eraseModule m).run ctx).result = .ok ([], ctx') :=
    Build.bind_eq_ok.mpr ⟨(), ctx', erased, rfl⟩
  have named : Reachable { w with handles := w.handles ++ [.module m] } :=
    reachable.step (.liveModule found (mem_liveModules.mpr ⟨mr, live⟩))
  have after :
      Reachable { contexts := w.contexts.set k ctx', handles := w.handles ++ [.module m] } := by
    have step : Step { w with handles := w.handles ++ [.module m] }
        { contexts := w.contexts.set k ctx', handles := (w.handles ++ [.module m]) ++ [] } :=
      .request found (by simp [Request.handles]) run
    rw [List.append_nil] at step
    exact named.step step
  have found' : (w.contexts.set k ctx')[k]? = some ctx' := List.getElem?_set_self inside
  have distinct' : ctx'.Distinct := after.distinct ctx' (List.mem_of_getElem? found')
  have exact := erases.loses wf live (reachable.distinct ctx mem) distinct'
  refine ⟨ctx', run, exact, fun later steps => ?_⟩
  obtain ⟨reachable', c, found'', kept⟩ := retains_of_steps after steps found'
  refine ⟨⟨c, found'', kept⟩, fun j d d' request answers at' given asked h answered gone => ?_⟩
  exact not_answered reachable' found'' at' given asked h answered (kept h gone)

/-- Pointer arithmetic over pointer arithmetic over a function, which has an argument and a block. -/
def nestedPointers : World := after [.context, .request 0 .voidType, .request 0 (.integerType 32),
  .upcast (.type .any ⟨⟨1⟩, 1⟩), .request 0 (.functionType ⟨⟨1⟩, 0⟩ [⟨⟨1⟩, 1⟩] false),
  .request 0 (.createModule "m"),
  .request 0 (.createFunction ⟨⟨⟨1⟩, 2⟩⟩ .external "f" ⟨⟨1⟩, 0⟩),
  .request 0 (.createBlock "entry" (some ⟨⟨⟨1⟩, 0⟩⟩) none), .request 0 (.createReturn none ⟨⟨1⟩, 0⟩),
  .request 0 (.constantBool false), .upcast (.value .constant ⟨⟨1⟩, 0⟩),
  .upcast (.value .constant ⟨⟨1⟩, 3⟩), .request 0 (.elementPtr ⟨⟨⟨1⟩, 0⟩⟩ [⟨⟨⟨1⟩, 3⟩⟩] false),
  .request 0 (.elementPtr ⟨⟨⟨1⟩, 4⟩⟩ [⟨⟨⟨1⟩, 3⟩⟩] true)]

theorem nestedPointers_erased : ∃ ctx mr ctx', nestedPointers.contexts[0]? = some ctx ∧
    ctx.module ⟨⟨1⟩, 0⟩ = .ok mr ∧ ctx.numConstants = 3 ∧
      ((Request.eraseModule ⟨⟨1⟩, 0⟩).run ctx).result = .ok ([], ctx') ∧
        ctx.Loses ⟨⟨1⟩, 0⟩ mr ctx' := by
  have computed : (nestedPointers.contexts[0]?).any (fun ctx : Context =>
      (ctx.module ⟨⟨1⟩, 0⟩).toOption.isSome ∧ ctx.numConstants = 3) = true := by decide +kernel
  obtain ⟨ctx, found, computed⟩ := (Option.any_eq_true _ _).mp computed
  obtain ⟨some, counted⟩ := of_decide_eq_true computed
  obtain ⟨mr, read⟩ := Option.isSome_iff_exists.mp some
  have live := Checked.toOption_eq_some.mp read
  obtain ⟨ctx', run, loses, _⟩ :=
    erasure_exact_and_permanent (reachable_after (by decide +kernel)) found live
  exact ⟨ctx, mr, ctx', found, live, counted, run, loses⟩

end World
end ModuleIR
