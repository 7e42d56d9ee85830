import ModuleIR.Proofs.Steps.Purging
import ModuleIR.Proofs.Steps.Tombstones

set_option autoImplicit false

/-!
# Erasing a module

Exactly the values that belong to the module become tombstones: its globals and functions, what is
inside the functions, and the pointer arithmetic over any of its globals and functions. The rounds of
the purge stay within what belongs to the module, and stop only when all of it is erased.
-/
namespace ModuleIR

namespace Context

/-- A value that is at home in a module, or in a function of the module. -/
def BelongsTo (ctx : Context) (m : ModuleRef) (v : ValueRef) : Prop :=
  ctx.Anchored v (.module m) ∨
    ∃ f r, ctx.Anchored v (.function f) ∧ ctx.function f = .ok r ∧ r.module = m

def BlockBelongsTo (ctx : Context) (m : ModuleRef) (b : BlockRef) : Prop :=
  ∃ br f r, ctx.block b = .ok br ∧ br.parent = some f ∧ ctx.function f = .ok r ∧ r.module = m

variable {ctx frame c : Context} {m : ModuleRef} {v : ValueRef}

theorem BelongsTo.live (h : ctx.BelongsTo m v) : ∃ r, ctx.value v = .ok r := by
  rcases h with home | ⟨_, _, home, _⟩
  · exact home.live
  · exact home.live

/-- Pointer arithmetic belongs where its base belongs. -/
theorem belongsTo_elementPtr {r : ValueRecord} {e : ElementPtrRecord}
    (read : ctx.value v = .ok r) (kind : r.kind = .elementPtr e) :
    ctx.BelongsTo m v ↔ ctx.BelongsTo m e.base := by
  have same {anchor : Anchor} : ctx.Anchored v anchor ↔ ctx.Anchored e.base anchor := by
    rw [anchored_iff read, kind]
    rfl
  simp only [BelongsTo, same]

theorem not_belongsTo_free (free : ctx.Anchored v .free) : ¬ctx.BelongsTo m v := by
  rintro (home | ⟨_, _, home, _⟩)
  · cases free.unique home
  · cases free.unique home

/-! ### What the walk erases -/

theorem ne_elementPtr_of_read {r : ValueRecord} (read : ctx.value v = .ok r)
    (other : ∀ e, r.kind ≠ .elementPtr e) :
    ∀ r e, ctx.value v = .ok r → r.kind ≠ .elementPtr e := by
  intro r' e again
  obtain rfl := Checked.unique read again
  exact other e

theorem functionHolds_of_home (wf : ctx.WellFormed) {f : FunctionRef} {fr : FunctionRecord}
    {k : Nat} (known : ctx.function f = .ok fr) (home : ctx.Anchored ⟨ctx.id, k⟩ (.function f))
    (content : ∀ r e, ctx.value ⟨ctx.id, k⟩ = .ok r → r.kind ≠ .elementPtr e) :
    ctx.FunctionHolds f k := by
  refine .inr ⟨fr, known, ?_⟩
  obtain ⟨r, held⟩ := home.live
  rw [anchored_iff held] at home
  cases kind : r.kind with
  | argument a =>
    rw [kind] at home
    obtain rfl := Anchor.function.inj home
    have sound := (wf.valueSound held).kind
    rw [kind] at sound
    obtain ⟨fr', known', mem⟩ := sound
    obtain rfl := Checked.unique known known'
    exact .inl ⟨_, mem, rfl⟩
  | instruction i =>
    rw [kind] at home
    obtain ⟨br, placed, home⟩ := home
    cases parent : br.parent with
    | none => simp [parent] at home
    | some f' =>
      obtain rfl : f = f' := by simpa [parent] using home
      obtain ⟨fr', known', mem⟩ := wf.block_listed placed parent
      obtain rfl := Checked.unique known known'
      obtain ⟨br', placed', mem'⟩ :=
        wf.instruction_listed (instruction_eq_ok.mpr ⟨r, held, kind⟩ :
          ctx.instruction ⟨⟨ctx.id, k⟩⟩ = .ok i)
      exact .inr ⟨i.parent, mem, br', placed', _, mem', rfl⟩
  | elementPtr e => exact absurd kind (content r e held)
  | _ => simp [kind, KindAnchored] at home

section Walk

variable {mr : ModuleRecord} (wf : ctx.WellFormed) (read : ctx.module m = .ok mr)
include wf read

theorem functionHolds_belongs {f : FunctionRef} {k : Nat} (mem : f ∈ mr.functions)
    (h : ctx.FunctionHolds f k) : ctx.BelongsTo m ⟨ctx.id, k⟩ ∧
      ∀ r e, ctx.value ⟨ctx.id, k⟩ = .ok r → r.kind ≠ .elementPtr e := by
  obtain ⟨fr, known, home⟩ := wf.module_function read mem
  obtain ⟨value, held, kind⟩ := function_eq_ok.mp known
  rcases h with rfl | ⟨fr', known', ⟨a, inside, rfl⟩ | ⟨b, inside, br, read', i, listed, rfl⟩⟩
  · rw [value_self held]
    exact ⟨.inl (home ▸ .function held kind), ne_elementPtr_of_read held (by simp [kind])⟩
  · obtain ⟨ar, argued, parent⟩ := wf.function_argument known' inside
    obtain ⟨record, held', kind'⟩ := argument_eq_ok.mp argued
    rw [value_self held']
    exact ⟨.inr ⟨f, fr, parent ▸ .argument held' kind', known, home⟩,
      ne_elementPtr_of_read held' (by simp [kind'])⟩
  · obtain ⟨br', read'', parent⟩ := wf.function_block known' inside
    obtain rfl := Checked.unique read' read''
    obtain ⟨ir, made, at'⟩ := wf.block_instruction read' listed
    obtain ⟨record, held', kind'⟩ := instruction_eq_ok.mp made
    rw [value_self held']
    exact ⟨.inr ⟨f, fr, .placed held' kind' (at' ▸ read') parent, known, home⟩,
      ne_elementPtr_of_read held' (by simp [kind'])⟩

theorem global_belongs {g : GlobalRef} (mem : g ∈ mr.globals) :
    ctx.BelongsTo m ⟨ctx.id, g.value.index⟩ ∧
      ∀ r e, ctx.value ⟨ctx.id, g.value.index⟩ = .ok r → r.kind ≠ .elementPtr e := by
  obtain ⟨gr, known, home⟩ := wf.module_global read mem
  obtain ⟨value, held, kind⟩ := global_eq_ok.mp known
  rw [value_self held]
  exact ⟨.inl (home ▸ .global held kind), ne_elementPtr_of_read held (by simp [kind])⟩

theorem function_mem_of_home {f : FunctionRef} {fr : FunctionRecord}
    (known : ctx.function f = .ok fr) (home : fr.module = m) : f ∈ mr.functions := by
  obtain ⟨mr', read', mem⟩ := wf.function_listed known
  rw [home, read] at read'
  obtain rfl := Except.ok.inj read'
  exact mem

theorem mem_of_home {k : Nat} (home : ctx.Anchored ⟨ctx.id, k⟩ (.module m))
    (content : ∀ r e, ctx.value ⟨ctx.id, k⟩ = .ok r → r.kind ≠ .elementPtr e) :
    (∃ f ∈ mr.functions, f.value.index = k) ∨ ∃ g ∈ mr.globals, g.value.index = k := by
  obtain ⟨r, held⟩ := home.live
  rw [anchored_iff held] at home
  cases kind : r.kind with
  | global g =>
    rw [kind] at home
    obtain rfl := Anchor.module.inj home
    obtain ⟨mr', read', mem⟩ := wf.global_listed (global_eq_ok.mpr ⟨r, held, kind⟩)
    obtain rfl := Checked.unique read read'
    exact .inr ⟨_, mem, rfl⟩
  | function fr =>
    rw [kind] at home
    have known : ctx.function ⟨⟨ctx.id, k⟩⟩ = .ok fr := function_eq_ok.mpr ⟨r, held, kind⟩
    exact .inl ⟨_, function_mem_of_home wf read known (Anchor.module.inj home).symm, rfl⟩
  | elementPtr e => exact absurd kind (content r e held)
  | instruction i =>
    rw [kind] at home
    obtain ⟨br, _, home⟩ := home
    cases parent : br.parent <;> simp [parent] at home
  | _ => simp [kind, KindAnchored] at home

/-- The walk erases what belongs to the module but for pointer arithmetic. -/
theorem walk_erases_iff {k : Nat} :
    ((∃ f ∈ mr.functions, ctx.FunctionHolds f k) ∨ ∃ g ∈ mr.globals, g.value.index = k) ↔
      ctx.BelongsTo m ⟨ctx.id, k⟩ ∧ ∀ r e, ctx.value ⟨ctx.id, k⟩ = .ok r → r.kind ≠ .elementPtr e := by
  constructor
  · rintro (⟨f, mem, held⟩ | ⟨g, mem, rfl⟩)
    · exact functionHolds_belongs wf read mem held
    · exact global_belongs wf read mem
  · rintro ⟨home | ⟨f, fr, home, known, within⟩, content⟩
    · rcases mem_of_home wf read home content with ⟨f, mem, same⟩ | listed
      · exact .inl ⟨f, mem, .inl same⟩
      · exact .inr listed
    · exact .inl ⟨f, function_mem_of_home wf read known within,
        functionHolds_of_home wf known home content⟩

theorem walk_erases_block_iff {k : Nat} :
    (∃ f ∈ mr.functions, ctx.FunctionHoldsBlock f k) ↔ ctx.BlockBelongsTo m ⟨ctx.id, k⟩ := by
  constructor
  · rintro ⟨f, mem, fr, known, b, inside, rfl⟩
    obtain ⟨br, read', parent⟩ := wf.function_block known inside
    obtain ⟨fr', known', home⟩ := wf.module_function read mem
    exact ⟨br, f, fr', by rw [block_self read']; exact read', parent, known', home⟩
  · rintro ⟨br, f, fr, read', parent, known, home⟩
    obtain ⟨fr', known', inside⟩ := wf.block_listed read' parent
    exact ⟨f, function_mem_of_home wf read known home, fr', known', _, inside, rfl⟩

end Walk

/-! ### The purge -/

/-- Between two rounds: what is erased belongs to the module, all but pointer arithmetic is erased
already, and the constant table holds the constants that are left. -/
structure Purging (ctx : Context) (m : ModuleRef) (modules : Array (Option ModuleRecord))
    (B V : Nat → Prop) (c : Context) : Prop where
  entombs : ctx.Entombs c V B c
  modules : c.modules = modules
  sound : ∀ k, V k → ctx.BelongsTo m ⟨ctx.id, k⟩
  core : ∀ k, ctx.BelongsTo m ⟨ctx.id, k⟩ →
    (∀ r e, ctx.value ⟨ctx.id, k⟩ = .ok r → r.kind ≠ .elementPtr e) → V k
  constants : ∀ key v, (key, v) ∈ c.constantTable.entries ↔
    (key, v) ∈ ctx.constantTable.entries ∧ ¬V v.index

namespace Purging

variable {modules : Array (Option ModuleRecord)} {B V : Nat → Prop} (wf : ctx.WellFormed)
  (p : ctx.Purging m modules B V c)

include p in
theorem isErased_iff {r : ValueRecord} (read : ctx.value v = .ok r) {erased : Bool} :
    c.isErased v = .ok erased ↔ (erased = true ↔ V v.index) := by
  obtain ⟨owner, stored, live⟩ := value_eq_ok.mp read
  rw [isErased_eq_ok, and_iff_right (owner.trans p.entombs.id.symm)]
  by_cases gone : V v.index
  · rw [p.entombs.values _ gone, stored]
    simp [gone, ValueRecord.tombstone, ValueKind.isErased, eq_comm]
  · have intact : r.kind.isErased = false := by simpa using mt ValueKind.isErased_iff.mp live
    rw [p.entombs.kept _ gone, stored]
    simp [gone, intact, eq_comm]

include wf p

theorem isDeadKey_iff {key : ConstantKey} (entry : (key, v) ∈ ctx.constantTable.entries)
    {dead : Bool} : c.isDeadKey key = .ok dead ↔ (dead = true ↔
      ∃ r e, ctx.value v = .ok r ∧ r.kind = .elementPtr e ∧ V e.base.index) := by
  obtain ⟨r, read, key?⟩ := wf.constants key v entry
  have rests : (∃ r e, ctx.value v = .ok r ∧ r.kind = .elementPtr e ∧ V e.base.index) ↔
      ∃ e, r.kind = .elementPtr e ∧ V e.base.index := by
    simp [read]
  rw [rests]
  cases kind : r.kind <;> rw [kind] at key? <;> simp only [ValueKind.key?] at key? <;> cases key?
  case elementPtr e =>
    have sound := wf.elementPtrSound read kind
    obtain ⟨base, baseRead, _⟩ := sound.base
    have indices : e.indices.anyM c.isErased = .ok false := by
      refine Checked.anyM_eq_false fun u mem => ?_
      obtain ⟨record, n, held, content⟩ := sound.indices u mem
      refine (p.isErased_iff held).mpr (by
        simp only [Bool.false_eq_true, false_iff]
        intro gone
        have belongs := p.sound _ gone
        rw [value_self held] at belongs
        exact not_belongsTo_free (.int held content) belongs)
    simp only [isDeadKey, indices, ValueKind.elementPtr.injEq, exists_eq_left', Checked.bind_eq_ok,
      p.isErased_iff baseRead]
    by_cases gone : V e.base.index <;> simp [gone, eq_comm]
  all_goals simp [isDeadKey, eq_comm]

theorem deadConstants_ends : ∃ dead, c.deadConstants = .ok dead := by
  classical
  refine deadAmong_ends fun entry mem => ?_
  have mem := ((p.constants entry.1 entry.2).mp mem).1
  exact ⟨_, (p.isDeadKey_iff wf mem).mpr (decide_eq_true_iff)⟩

theorem mem_deadConstants {dead : List ValueRef} (found : c.deadConstants = .ok dead) : v ∈ dead ↔
    ∃ r e, ctx.value v = .ok r ∧ r.kind = .elementPtr e ∧ V e.base.index ∧ ¬V v.index := by
  rw [mem_deadAmong found]
  constructor
  · rintro ⟨key, entry, gone⟩
    obtain ⟨entry, stays⟩ := (p.constants key v).mp entry
    obtain ⟨r, e, read, kind, base⟩ := ((p.isDeadKey_iff wf entry).mp gone).mp rfl
    exact ⟨r, e, read, kind, base, stays⟩
  · rintro ⟨r, e, read, kind, base, stays⟩
    have entry := wf.tabled v r (.elementPtr e.base e.indices e.inBounds) read (by rw [kind]; rfl)
    exact ⟨_, (p.constants _ v).mpr ⟨entry, stays⟩,
      (p.isDeadKey_iff wf entry).mpr (iff_of_true rfl ⟨r, e, read, kind, base⟩)⟩

theorem round {dead : List ValueRef} (found : c.deadConstants = .ok dead) :
    ∃ c', c.dropConstants dead = .ok c' ∧
      ctx.Purging m modules B (fun k => V k ∨ ∃ v ∈ dead, v.index = k) c' := by
  obtain ⟨erased, walked, e⟩ := p.entombs.eraseValues fun v mem => by
    obtain ⟨r, _, read, _⟩ := (p.mem_deadConstants wf found).mp mem
    exact ⟨r, read⟩
  have run : c.dropConstants dead = .ok { erased with
      constantTable := erased.constantTable.filterEntries fun v => !dead.contains v } :=
    Checked.bind_eq_ok.mpr ⟨erased, walked, rfl⟩
  refine ⟨_, run,
    { entombs := ⟨e.id, e.types, e.typeTable, rfl, rfl, e.values, e.kept, e.blocks, e.keptBlocks⟩
      modules := e.modules.trans p.modules
      sound := fun k gone => ?_
      core := fun k belongs content => .inl (p.core k belongs content)
      constants := fun key v => ?_ }⟩
  · rcases gone with old | ⟨v, mem, rfl⟩
    · exact p.sound k old
    · obtain ⟨r, e, read, kind, base, _⟩ := (p.mem_deadConstants wf found).mp mem
      obtain ⟨record, held, _⟩ := (wf.elementPtrSound read kind).base
      have belongs := p.sound _ base
      rw [value_self held] at belongs
      rw [value_self read]
      exact (belongsTo_elementPtr read kind).mpr belongs
  · rw [entries_dropConstants run, List.mem_filter, p.constants]
    simp only [Bool.not_eq_true', List.contains_eq_mem, decide_eq_false_iff_not, not_or, and_assoc]
    refine and_congr_right fun entry => and_congr_right fun _ => not_congr ?_
    constructor
    · exact fun mem => ⟨v, mem, rfl⟩
    · rintro ⟨u, mem, same⟩
      obtain ⟨r, _, read, _⟩ := (p.mem_deadConstants wf found).mp mem
      obtain ⟨r', read', _⟩ := wf.constants key v entry
      obtain rfl : u = v := by rw [← value_self read, ← value_self read', same]
      exact mem

/-- Where no constant is dead, all that belongs to the module is erased. -/
theorem complete (none : c.deadConstants = .ok []) (k : Nat) :
    ctx.BelongsTo m ⟨ctx.id, k⟩ ↔ V k := by
  refine ⟨fun belongs => ?_, p.sound k⟩
  induction k using Nat.strongRecOn with
  | ind k ih =>
    obtain ⟨r, read⟩ := belongs.live
    cases kind : r.kind with
    | elementPtr e =>
      have sound := wf.elementPtrSound read kind
      obtain ⟨record, held, _⟩ := sound.base
      have base : V e.base.index := by
        refine ih _ sound.baseBefore ?_
        rw [value_self held]
        exact (belongsTo_elementPtr read kind).mp belongs
      refine Classical.byContradiction fun stays => ?_
      cases (p.mem_deadConstants wf none).mpr ⟨r, e, read, kind, base, stays⟩
    | _ =>
      refine p.core k belongs fun r' e read' content => ?_
      obtain rfl := Checked.unique read read'
      rw [kind] at content
      cases content

end Purging

/-- However many rounds are made, they succeed and stay within what belongs to the module. -/
theorem purgeWithin_spec (wf : ctx.WellFormed) {modules : Array (Option ModuleRecord)}
    {B V : Nat → Prop} (rounds : Nat) (p : ctx.Purging m modules B V c) :
    ∃ c' V', c.purgeWithin rounds = .ok c' ∧ ctx.Purging m modules B V' c' := by
  induction rounds generalizing c V with
  | zero => exact ⟨c, V, rfl, p⟩
  | succ rounds ih =>
    obtain ⟨dead, found⟩ := p.deadConstants_ends wf
    rw [purgeWithin, found, Checked.ok_bind]
    split
    · exact ⟨c, V, rfl, p⟩
    · obtain ⟨c', dropped, p'⟩ := p.round wf found
      rw [dropped, Checked.ok_bind]
      exact ih p'

theorem purgeConstants_spec (wf : ctx.WellFormed) {modules : Array (Option ModuleRecord)}
    {B V : Nat → Prop} (p : ctx.Purging m modules B V c) :
    ∃ c' V', c.purgeConstants = .ok c' ∧ ctx.Purging m modules B V' c' ∧
      c'.deadConstants = .ok [] := by
  obtain ⟨c', V', run, purged⟩ := purgeWithin_spec wf _ p
  have ended := purgeRunning_eq (Nat.lt_succ_self c.pointerEntries)
  rw [purgeConstants, run] at ended
  exact ⟨c', V', run, purged, deadConstants_purgeRunning ended⟩

/-! ### The whole erasure -/

/-- The context without a module and all that belongs to it. -/
structure Erases (ctx : Context) (m : ModuleRef) (ctx' : Context) : Prop where
  entombs : ctx.Entombs ctx' (fun k => ctx.BelongsTo m ⟨ctx.id, k⟩)
    (fun k => ctx.BlockBelongsTo m ⟨ctx.id, k⟩) ctx'
  owner : m.ctx = ctx.id
  modules : ctx'.modules = ctx.modules.modify m.index fun _ => none
  constants : ∀ key v, (key, v) ∈ ctx'.constantTable.entries ↔
    (key, v) ∈ ctx.constantTable.entries ∧ ¬ctx.BelongsTo m v

/-- The erasure of a live module never fails: every handle that it meets belongs to the context and
lies in the arenas, so that none of the checks on the way refuses it. -/
theorem eraseContents_spec (wf : ctx.WellFormed) {mr : ModuleRecord}
    (read : ctx.module m = .ok mr) :
    ∃ ctx', ({ ctx with modules := ctx.modules.modify m.index fun _ => none } :
      Context).eraseContents mr = .ok ctx' ∧ ctx.Erases m ctx' := by
  obtain ⟨walked, run, e₁⟩ := eraseFunctionTrees_spec wf
    (Entombs.start ctx (ctx.modules.modify m.index fun _ => none))
    (wf.moduleSound read).functionsNodup (fun f mem => by
      obtain ⟨fr, known, _⟩ := wf.module_function read mem
      exact ⟨fr, known⟩) (fun f mem => ⟨not_false, fun _ _ _ _ => not_false⟩)
  obtain ⟨empty, emptied, e₂⟩ := e₁.eraseValues fun g mem => by
    obtain ⟨_, known, _⟩ := wf.module_global read mem
    obtain ⟨record, held, _⟩ := global_eq_ok.mp known
    exact ⟨record, held⟩
  have start : ctx.Purging m (ctx.modules.modify m.index fun _ => none)
      (fun k => ctx.BlockBelongsTo m ⟨ctx.id, k⟩)
      (fun k => ctx.BelongsTo m ⟨ctx.id, k⟩ ∧
        ∀ r e, ctx.value ⟨ctx.id, k⟩ = .ok r → r.kind ≠ .elementPtr e) empty :=
    { entombs :=
        have e₃ := e₂.congr (fun k => by rw [false_or, walk_erases_iff wf read]) (fun k => by
          rw [false_or, walk_erases_block_iff wf read])
        ⟨e₃.id, e₃.types, e₃.typeTable, rfl, rfl, e₃.values, e₃.kept, e₃.blocks, e₃.keptBlocks⟩
      modules := e₂.modules
      sound := fun k gone => gone.1
      core := fun k belongs content => ⟨belongs, content⟩
      constants := by
        intro key v
        rw [e₂.constantTable]
        refine ⟨fun entry => ⟨entry, ?_⟩, And.left⟩
        rintro ⟨belongs, content⟩
        obtain ⟨r, held, key?⟩ := wf.constants key v entry
        rw [value_self held] at belongs content
        cases kind : r.kind with
        | int n => exact not_belongsTo_free (.int held kind) belongs
        | bytes bytes => exact not_belongsTo_free (.bytes held kind) belongs
        | elementPtr e => exact content r e held kind
        | _ => simp [kind, ValueKind.key?] at key? }
  obtain ⟨ctx', V, purged, done, none⟩ := purgeConstants_spec wf start
  refine ⟨ctx', Checked.bind_eq_ok.mpr ⟨walked, run,
    Checked.bind_eq_ok.mpr ⟨empty, emptied, purged⟩⟩, ?_⟩
  have complete := done.complete wf none
  exact
    { entombs := done.entombs.congr complete (fun _ => Iff.rfl)
      owner := (module_eq_ok.mp read).1
      modules := done.modules
      constants := by
        intro key v
        rw [done.constants, ← complete]
        refine and_congr_right fun entry => ?_
        obtain ⟨r, held, _⟩ := wf.constants key v entry
        rw [value_self held] }

end Context
end ModuleIR
