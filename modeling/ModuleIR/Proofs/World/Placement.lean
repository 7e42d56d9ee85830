import ModuleIR.Proofs.Arena.References
import ModuleIR.Proofs.Steps.Blocks
import ModuleIR.Proofs.Steps.Survivors

set_option autoImplicit false

/-!
# What a change places and keeps alive

Which instructions are in a function after a change, what the instructions of a module refer to then,
and which of that is alive. Growth kills nothing; it adds references with what it appends to a block
of the module or places in the module. An erasure takes what belongs to the erased module.
-/
namespace ModuleIR

namespace Context

variable {ctx ctx' : Context} {m : ModuleRef} {f : FunctionRef} {h : Handle}

/-! ### Placed instructions -/

theorem Extends.placedIn (e : ctx.Extends ctx') (wf : ctx.WellFormed) {i : InstructionRef}
    {r' : InstructionRecord} (h : ctx'.PlacedIn i r' f) : ∃ r, ctx.PlacedIn i r f := by
  obtain ⟨r, made⟩ := e.instructions i r' h.made
  obtain ⟨same, made', parent, _⟩ := e.instruction made
  obtain rfl := Except.ok.inj (h.made.symm.trans made')
  obtain ⟨br', read', placed⟩ := h.placed
  obtain ⟨br, read, _⟩ := wf.instruction_listed made
  rw [parent] at read'
  exact ⟨r, made, br, read, (e.parents _ br br' read read').symm.trans placed⟩

theorem Erases.placedIn {n : ModuleRef} (e : ctx.Erases n ctx') {i : InstructionRef}
    {r : InstructionRecord} (h : ctx'.PlacedIn i r f) : ctx.PlacedIn i r f := by
  obtain ⟨br, read, placed⟩ := h.placed
  exact ⟨(e.instruction.mp h.made).1, br, (e.block.mp read).1, placed⟩

theorem Appends.placedIn {b : BlockRef} {operation : Operation} {j : InstructionRef}
    (a : ctx.Appends ctx' b operation j) (wf : ctx.WellFormed) {i : InstructionRef}
    {r' : InstructionRecord} (h : ctx'.PlacedIn i r' f) :
    (∃ r, ctx.PlacedIn i r f) ∨ (r'.operation.bare = operation.bare ∧
      ∃ br, ctx'.block b = .ok br ∧ br.parent = some f) := by
  obtain ⟨br', read', placed⟩ := h.placed
  rcases a.instructions i r' h.made with rfl | ⟨r, made⟩
  · obtain ⟨new, made, parent, bare⟩ := a.made
    obtain rfl := Except.ok.inj (h.made.symm.trans made)
    exact .inr ⟨bare, br', parent ▸ read', placed⟩
  · obtain ⟨same, made', parent, _⟩ := a.instruction made
    obtain rfl := Except.ok.inj (h.made.symm.trans made')
    obtain ⟨br, read, _⟩ := wf.instruction_listed made
    rw [parent] at read'
    exact .inl ⟨r, made, br, read, (a.parents _ br br' read read').symm.trans placed⟩

theorem Places.placedIn {b : BlockRef} {g : FunctionRef} (p : ctx.Places ctx' b g)
    (wf : ctx.WellFormed) {i : InstructionRef} {r' : InstructionRecord} (h : ctx'.PlacedIn i r' f) :
    (∃ r, ctx.PlacedIn i r f) ∨ (f = g ∧ r'.parent = b ∧
      ∃ r, ctx.instruction i = .ok r ∧ r'.operation.bare = r.operation.bare) := by
  obtain ⟨br', read', placed⟩ := h.placed
  obtain ⟨r, made⟩ := p.instructions i r' h.made
  obtain ⟨same, made', parent, bare⟩ := p.instruction made
  obtain rfl := Except.ok.inj (h.made.symm.trans made')
  by_cases here : r'.parent = b
  · obtain ⟨new, read'', home⟩ := p.placed
    rw [here, read''] at read'
    obtain rfl := Except.ok.inj read'
    exact .inr ⟨Option.some.inj (placed.symm.trans home), here, r, made, bare⟩
  · obtain ⟨br, read, _⟩ := wf.instruction_listed made
    rw [parent] at read' here
    exact .inl ⟨r, made, br, read, (p.parents _ br br' here read read').symm.trans placed⟩

theorem Grows.placedIn (g : ctx.Grows ctx') {i : InstructionRef} {r : InstructionRecord}
    (placed : ctx.PlacedIn i r f) :
    ∃ r', ctx'.PlacedIn i r' f ∧ r'.operation.bare = r.operation.bare := by
  obtain ⟨r', made, parent, bare⟩ := g.instruction placed.made
  obtain ⟨br, read, home⟩ := placed.placed
  obtain ⟨br', read', grown⟩ := g.block read
  exact ⟨r', ⟨made, br', parent ▸ read', grown.parent _ home⟩, bare⟩

/-! ### References -/

theorem Grows.references (g : ctx.Grows ctx') (referred : ctx.References m h) :
    ctx'.References m h := by
  obtain ⟨i, r, f, fr, placed, known, home, mem⟩ := referred
  obtain ⟨r', placed', bare⟩ := g.placedIn placed
  obtain ⟨fr', known', module, _⟩ := g.function known
  exact ⟨i, r', f, fr', placed', known', module.trans home,
    by rwa [Operation.handles_eq_of_bare bare]⟩

/-- What an instruction refers to that was placed before the growth was referred to before. -/
theorem Grows.referenced (g : ctx.Grows ctx') (wf : ctx.WellFormed) {i : InstructionRef}
    {r r' : InstructionRecord} {fr : FunctionRecord} (placed : ctx.PlacedIn i r f)
    (placed' : ctx'.PlacedIn i r' f) (known : ctx'.function f = .ok fr) (home : fr.module = m)
    (mem : h ∈ r'.operation.handles) : ctx.References m h := by
  obtain ⟨same, made, _, bare⟩ := g.instruction placed.made
  obtain rfl := Except.ok.inj (placed'.made.symm.trans made)
  obtain ⟨br, read, parent⟩ := placed.placed
  obtain ⟨old, known', _⟩ := wf.block_listed read parent
  obtain ⟨fr', known'', module, _⟩ := g.function known'
  obtain rfl := Checked.unique known known''
  exact ⟨i, r, f, old, placed, known', module.symm.trans home,
    by rwa [← Operation.handles_eq_of_bare bare]⟩

theorem Extends.references_iff (e : ctx.Extends ctx') (wf : ctx.WellFormed) :
    ctx'.References m h ↔ ctx.References m h := by
  refine ⟨?_, e.toGrows.references⟩
  rintro ⟨i, r', f, fr, placed', known, home, mem⟩
  obtain ⟨r, placed⟩ := e.placedIn wf placed'
  exact e.toGrows.referenced wf placed placed' known home mem

/-- An appended instruction adds its references when it is appended in the module. -/
theorem Appends.references_iff {b : BlockRef} {operation : Operation} {i : InstructionRef}
    (a : ctx.Appends ctx' b operation i) (wf : ctx.WellFormed) (live : ∃ br, ctx.block b = .ok br) :
    ctx'.References m h ↔
      ctx.References m h ∨ (ctx.BlockBelongsTo m b ∧ h ∈ operation.handles) := by
  obtain ⟨br, read⟩ := live
  constructor
  · rintro ⟨j, r', f, fr, placed', known, home, mem⟩
    rcases a.placedIn wf placed' with ⟨r, placed⟩ | ⟨bare, br', read', parent'⟩
    · exact .inl (a.toGrows.referenced wf placed placed' known home mem)
    · have parent : br.parent = some f := (a.parents b br br' read read').symm.trans parent'
      obtain ⟨old, known', _⟩ := wf.block_listed read parent
      obtain ⟨fr', known'', module, _⟩ := a.function known'
      obtain rfl := Checked.unique known known''
      rw [Operation.handles_eq_of_bare bare] at mem
      exact .inr ⟨⟨br, f, old, read, parent, known', module.symm.trans home⟩, mem⟩
  · rintro (old | ⟨⟨br', f, fr, read', parent, known, home⟩, mem⟩)
    · exact a.toGrows.references old
    · obtain ⟨r, made, placed, bare⟩ := a.made
      obtain ⟨br'', read'', grown⟩ := a.block read'
      obtain ⟨fr', known', module, _⟩ := a.function known
      exact ⟨i, r, f, fr', ⟨made, br'', placed ▸ read'', grown.parent _ parent⟩, known',
        module.trans home, by rwa [Operation.handles_eq_of_bare bare]⟩

theorem Places.references_iff {b : BlockRef} {fr : FunctionRecord} (p : ctx.Places ctx' b f)
    (wf : ctx.WellFormed) (known : ctx.function f = .ok fr) :
    ctx'.References m h ↔ ctx.References m h ∨ (fr.module = m ∧
      ∃ i r, ctx.instruction i = .ok r ∧ r.parent = b ∧ h ∈ r.operation.handles) := by
  obtain ⟨fr', known', module, _⟩ := p.function known
  constructor
  · rintro ⟨i, r', g, gr, placed', user, home, mem⟩
    rcases p.placedIn wf placed' with ⟨r, placed⟩ | ⟨rfl, here, r, made, bare⟩
    · exact .inl (p.toGrows.referenced wf placed placed' user home mem)
    · obtain rfl := Checked.unique user known'
      obtain ⟨same, made', parent, _⟩ := p.instruction made
      obtain rfl := Except.ok.inj (placed'.made.symm.trans made')
      refine .inr ⟨module.symm.trans home, i, r, made, parent.symm.trans here, ?_⟩
      rwa [← Operation.handles_eq_of_bare bare]
  · rintro (old | ⟨home, i, r, made, here, mem⟩)
    · exact p.toGrows.references old
    · obtain ⟨r', made', parent, bare⟩ := p.instruction made
      obtain ⟨br, read, inside⟩ := p.placed
      exact ⟨i, r', f, fr', ⟨made', br, by rw [parent, here]; exact read, inside⟩, known',
        module.trans home, by rwa [Operation.handles_eq_of_bare bare]⟩

theorem Erases.references_iff {n : ModuleRef} (e : ctx.Erases n ctx') (wf : ctx.WellFormed)
    (other : m ≠ n) : ctx'.References m h ↔ ctx.References m h := by
  constructor
  · rintro ⟨i, r, f, fr, placed, known, home, mem⟩
    exact ⟨i, r, f, fr, e.placedIn placed, (e.function.mp known).1, home, mem⟩
  · rintro ⟨i, r, f, fr, ⟨made, br, read, parent⟩, known, home, mem⟩
    have stays : ¬ctx.BlockBelongsTo n r.parent := by
      rw [blockBelongsTo_placed read parent known, home]
      exact other
    exact ⟨i, r, f, fr, ⟨e.instruction.mpr ⟨made, mt (belongsTo_instruction wf made).mp stays⟩,
      br, e.block.mpr ⟨read, stays⟩, parent⟩, e.function.mpr ⟨known, home ▸ other⟩, home, mem⟩

/-! ### What is alive -/

theorem Grows.lives_iff (g : ctx.Grows ctx') (admitted : ctx.Admits h) :
    ctx'.Lives h ↔ ctx.Lives h := by
  have owned {owner : ContextId} (own : owner = ctx'.id) : owner = ctx.id := own.trans g.id
  cases h with
  | type view t =>
    refine ⟨?_, g.hasType⟩
    rintro ⟨shape, read⟩
    obtain ⟨old, stored, _⟩ := admitted (owned (shape_eq_ok.mp read).1)
    exact ⟨old, shape_eq_ok.mpr ⟨owned (shape_eq_ok.mp read).1, stored⟩⟩
  | value view v =>
    constructor
    · rintro ⟨r', read⟩
      obtain ⟨own, stored', live⟩ := value_eq_ok.mp read
      obtain ⟨r, stored, _⟩ := admitted (owned own)
      obtain ⟨same, again, _, step⟩ := g.values _ _ stored
      obtain rfl := Option.some.inj (stored'.symm.trans again)
      exact ⟨r, value_eq_ok.mpr ⟨owned own, stored, mt step.erased_iff.mpr live⟩⟩
    · rintro ⟨r, read⟩
      obtain ⟨r', read', _⟩ := g.value read
      exact ⟨r', read'⟩
  | block b =>
    constructor
    · rintro ⟨r', read⟩
      obtain ⟨own, stored', live⟩ := block_eq_ok.mp read
      obtain ⟨r, stored⟩ := admitted (owned own)
      obtain ⟨same, again, step⟩ := g.blocks _ _ stored
      obtain rfl := Option.some.inj (stored'.symm.trans again)
      exact ⟨r, block_eq_ok.mpr ⟨owned own, stored, step.erased.symm.trans live⟩⟩
    · rintro ⟨r, read⟩
      obtain ⟨r', read', _⟩ := g.block read
      exact ⟨r', read'⟩
  | module n =>
    constructor
    · rintro ⟨r', read⟩
      obtain ⟨own, stored'⟩ := module_eq_ok.mp read
      obtain ⟨place, stored⟩ := admitted (owned own)
      cases place with
      | some r => exact ⟨r, module_eq_ok.mpr ⟨owned own, stored⟩⟩
      | none =>
        have empty := g.emptyModules _ stored
        rw [stored'] at empty
        cases empty
    · rintro ⟨r, read⟩
      obtain ⟨r', read', _⟩ := g.module read
      exact ⟨r', read'⟩

def GoesWith (ctx : Context) (m : ModuleRef) : Handle → Prop
  | .type _ _ => False
  | .value _ v => ctx.BelongsTo m v
  | .block b => ctx.BlockBelongsTo m b
  | .module n => n = m

theorem Erases.lives_iff {n : ModuleRef} (e : ctx.Erases n ctx') :
    ctx'.Lives h ↔ ctx.Lives h ∧ ¬ctx.GoesWith n h := by
  cases h with
  | type view t => simp only [Lives, HasType, GoesWith, e.shape, not_false_eq_true, and_true]
  | value view v => simp only [Lives, GoesWith, e.value, exists_and_right]
  | block b => simp only [Lives, GoesWith, e.block, exists_and_right]
  | module k => simp only [Lives, GoesWith, e.module, exists_and_right, ne_eq]

end Context
end ModuleIR
