import ModuleIR.Proofs.Steps.Instructions
import ModuleIR.Proofs.Steps.Purging

set_option autoImplicit false

/-!
# The walk of an erasure

What the walk over the functions and globals of a module leaves behind is described against the
context it starts from: a set of values and a set of blocks are replaced by tombstones, everything
else is as it was. The walk never fails: all that a list holds was live at the start, and what one
function holds is not held by another.
-/
namespace ModuleIR

namespace Context

/-- `c` has tombstones for the values in `V` and the blocks in `B`, and is otherwise `ctx`, with the
modules and the constant table of `frame`. -/
structure Entombs (ctx frame : Context) (V B : Nat → Prop) (c : Context) : Prop where
  id : c.id = ctx.id
  types : c.types = ctx.types
  typeTable : c.typeTable = ctx.typeTable
  constantTable : c.constantTable = frame.constantTable
  modules : c.modules = frame.modules
  values : ∀ k, V k → c.values[k]? = ctx.values[k]?.map ValueRecord.tombstone
  kept : ∀ k, ¬V k → c.values[k]? = ctx.values[k]?
  blocks : ∀ k, B k → c.blocks[k]? = ctx.blocks[k]?.map BlockRecord.tombstone
  keptBlocks : ∀ k, ¬B k → c.blocks[k]? = ctx.blocks[k]?

namespace Entombs

variable {ctx frame c : Context} {V B : Nat → Prop}

theorem start (ctx : Context) (modules : Array (Option ModuleRecord)) :
    ctx.Entombs { ctx with modules } (fun _ => False) (fun _ => False) { ctx with modules } where
  id := rfl
  types := rfl
  typeTable := rfl
  constantTable := rfl
  modules := rfl
  values _ h := h.elim
  kept _ _ := rfl
  blocks _ h := h.elim
  keptBlocks _ _ := rfl

theorem congr {V' B' : Nat → Prop} (e : ctx.Entombs frame V B c) (values : ∀ k, V' k ↔ V k)
    (blocks : ∀ k, B' k ↔ B k) : ctx.Entombs frame V' B' c := by
  obtain rfl : V' = V := funext fun k => propext (values k)
  obtain rfl : B' = B := funext fun k => propext (blocks k)
  exact e

theorem value (e : ctx.Entombs frame V B c) {v : ValueRef} {r : ValueRecord} :
    c.value v = .ok r ↔ ctx.value v = .ok r ∧ ¬V v.index := by
  rw [value_eq_ok, value_eq_ok, e.id]
  by_cases gone : V v.index
  · rw [e.values _ gone]
    constructor
    · rintro ⟨_, stored, live⟩
      obtain ⟨old, _, rfl⟩ := Option.map_eq_some_iff.mp stored
      exact absurd rfl live
    · rintro ⟨_, absurd⟩
      exact (absurd gone).elim
  · rw [e.kept _ gone]
    simp [gone]

theorem block (e : ctx.Entombs frame V B c) {b : BlockRef} {r : BlockRecord} :
    c.block b = .ok r ↔ ctx.block b = .ok r ∧ ¬B b.index := by
  rw [block_eq_ok, block_eq_ok, e.id]
  by_cases gone : B b.index
  · rw [e.blocks _ gone]
    constructor
    · rintro ⟨_, stored, live⟩
      obtain ⟨old, _, rfl⟩ := Option.map_eq_some_iff.mp stored
      simp [BlockRecord.tombstone] at live
    · rintro ⟨_, absurd⟩
      exact (absurd gone).elim
  · rw [e.keptBlocks _ gone]
    simp [gone]

theorem tombstoneValue (e : ctx.Entombs frame V B c) (v : ValueRef) :
    ctx.Entombs frame (fun k => V k ∨ v.index = k) B
      (c.modifyValue v ValueRecord.tombstone) where
  id := e.id
  types := e.types
  typeTable := e.typeTable
  constantTable := e.constantTable
  modules := e.modules
  values k gone := by
    rw [values_modifyValue]
    by_cases old : V k
    · rw [e.values k old]
      split
      · rw [Option.map_map]
        rfl
      · rfl
    · rw [if_pos (gone.resolve_left old), e.kept k old]
  kept k stays := by
    rw [values_modifyValue, if_neg fun same => stays (.inr same), e.kept k fun old => stays (.inl old)]
  blocks := e.blocks
  keptBlocks := e.keptBlocks

theorem tombstoneBlock (e : ctx.Entombs frame V B c) (b : BlockRef) :
    ctx.Entombs frame V (fun k => B k ∨ b.index = k)
      (c.modifyBlock b BlockRecord.tombstone) where
  id := e.id
  types := e.types
  typeTable := e.typeTable
  constantTable := e.constantTable
  modules := e.modules
  values := e.values
  kept := e.kept
  blocks k gone := by
    rw [blocks_modifyBlock]
    by_cases old : B k
    · rw [e.blocks k old]
      split
      · rw [Option.map_map]
        rfl
      · rfl
    · rw [if_pos (gone.resolve_left old), e.keptBlocks k old]
  keptBlocks k stays := by
    rw [blocks_modifyBlock, if_neg fun same => stays (.inr same),
      e.keptBlocks k fun old => stays (.inl old)]

/-- What was live at the start can be erased, again if it is erased already. -/
theorem eraseValue (e : ctx.Entombs frame V B c) {v : ValueRef} {r : ValueRecord}
    (live : ctx.value v = .ok r) :
    ∃ c', c.eraseValue v = .ok c' ∧ ctx.Entombs frame (fun k => V k ∨ v.index = k) B c' := by
  obtain ⟨owner, stored, _⟩ := value_eq_ok.mp live
  refine ⟨_, eraseValue_eq_ok.mpr ⟨owner.trans e.id.symm, ?_, rfl⟩, e.tombstoneValue v⟩
  by_cases gone : V v.index
  · exact ⟨r.tombstone, by rw [e.values _ gone, stored]; rfl⟩
  · exact ⟨r, (e.kept _ gone).trans stored⟩

theorem eraseBlock (e : ctx.Entombs frame V B c) {b : BlockRef} {r : BlockRecord}
    (live : ctx.block b = .ok r) :
    ∃ c', c.eraseBlock b = .ok c' ∧ ctx.Entombs frame V (fun k => B k ∨ b.index = k) c' := by
  obtain ⟨owner, stored, _⟩ := block_eq_ok.mp live
  refine ⟨_, eraseBlock_eq_ok.mpr ⟨owner.trans e.id.symm, ?_, rfl⟩, e.tombstoneBlock b⟩
  by_cases gone : B b.index
  · exact ⟨r.tombstone, by rw [e.blocks _ gone, stored]; rfl⟩
  · exact ⟨r, (e.keptBlocks _ gone).trans stored⟩

theorem eraseValues (e : ctx.Entombs frame V B c) {α : Type} {ref : α → ValueRef} {xs : List α}
    (live : ∀ x ∈ xs, ∃ r, ctx.value (ref x) = .ok r) :
    ∃ c', xs.foldlM (fun c x => c.eraseValue (ref x)) c = .ok c' ∧
      ctx.Entombs frame (fun k => V k ∨ ∃ x ∈ xs, (ref x).index = k) B c' := by
  induction xs generalizing c V with
  | nil => exact ⟨c, rfl, e.congr (by simp) (fun _ => Iff.rfl)⟩
  | cons x rest ih =>
    rw [List.forall_mem_cons] at live
    obtain ⟨⟨r, read⟩, live⟩ := live
    obtain ⟨mid, first, e₁⟩ := e.eraseValue read
    obtain ⟨last, others, e₂⟩ := ih e₁ live
    refine ⟨last, Checked.foldlM_cons_eq_ok.mpr ⟨mid, first, others⟩,
      e₂.congr (fun k => ?_) (fun _ => Iff.rfl)⟩
    simp only [List.mem_cons, exists_eq_or_imp, or_assoc]

end Entombs

/-! ### What blocks and functions hold -/

def BlockHolds (ctx : Context) (b : BlockRef) (k : Nat) : Prop :=
  ∃ r, ctx.block b = .ok r ∧ ∃ i ∈ r.instructions, i.value.index = k

/-- The positions of a function, its arguments and its instructions. -/
def FunctionHolds (ctx : Context) (f : FunctionRef) (k : Nat) : Prop :=
  f.value.index = k ∨ ∃ r, ctx.function f = .ok r ∧
    ((∃ a ∈ r.args, a.value.index = k) ∨ ∃ b ∈ r.blocks, ctx.BlockHolds b k)

def FunctionHoldsBlock (ctx : Context) (f : FunctionRef) (k : Nat) : Prop :=
  ∃ r, ctx.function f = .ok r ∧ ∃ b ∈ r.blocks, b.index = k

variable {ctx frame c : Context} {V B : Nat → Prop}

theorem eraseBlockTree_spec (wf : ctx.WellFormed) (e : ctx.Entombs frame V B c) {b : BlockRef}
    {r : BlockRecord} (read : ctx.block b = .ok r) (stays : ¬B b.index) :
    ∃ c', c.eraseBlockTree b = .ok c' ∧
      ctx.Entombs frame (fun k => V k ∨ ctx.BlockHolds b k) (fun k => B k ∨ b.index = k) c' := by
  obtain ⟨emptied, walked, e₁⟩ := e.eraseValues fun i mem => by
    obtain ⟨_, made, _⟩ := wf.block_instruction read mem
    obtain ⟨record, held, _⟩ := instruction_eq_ok.mp made
    exact ⟨record, held⟩
  obtain ⟨c', erased, e₂⟩ := e₁.eraseBlock read
  refine ⟨c', Checked.bind_eq_ok.mpr ⟨r, e.block.mpr ⟨read, stays⟩,
    Checked.bind_eq_ok.mpr ⟨emptied, walked, erased⟩⟩, e₂.congr ?_ (fun _ => Iff.rfl)⟩
  intro k
  refine or_congr_right ⟨?_, fun held => ⟨r, read, held⟩⟩
  rintro ⟨r', read', held⟩
  obtain rfl : r = r' := by simpa [read] using read'
  exact held

theorem eraseBlockTrees_spec (wf : ctx.WellFormed) (e : ctx.Entombs frame V B c)
    {bs : List BlockRef} (nodup : bs.Nodup) (live : ∀ b ∈ bs, ∃ r, ctx.block b = .ok r)
    (stay : ∀ b ∈ bs, ¬B b.index) :
    ∃ c', bs.foldlM eraseBlockTree c = .ok c' ∧
      ctx.Entombs frame (fun k => V k ∨ ∃ b ∈ bs, ctx.BlockHolds b k)
        (fun k => B k ∨ ∃ b ∈ bs, b.index = k) c' := by
  induction bs generalizing c V B with
  | nil => exact ⟨c, rfl, e.congr (by simp) (by simp)⟩
  | cons b rest ih =>
    rw [List.forall_mem_cons] at live stay
    obtain ⟨fresh, nodup⟩ := List.nodup_cons.mp nodup
    obtain ⟨⟨r, read⟩, live⟩ := live
    obtain ⟨mid, first, e₁⟩ := eraseBlockTree_spec wf e read stay.1
    obtain ⟨last, others, e₂⟩ := ih e₁ nodup live (by
      rintro b' mem (old | same)
      · exact stay.2 b' mem old
      · obtain ⟨r', read'⟩ := live b' mem
        refine fresh ?_
        rw [← block_self read, same, block_self read']
        exact mem)
    refine ⟨last, Checked.foldlM_cons_eq_ok.mpr ⟨mid, first, others⟩,
      e₂.congr (fun k => ?_) (fun k => ?_)⟩ <;>
    simp only [List.mem_cons, exists_eq_or_imp, or_assoc]

theorem eraseFunctionTree_spec (wf : ctx.WellFormed) (e : ctx.Entombs frame V B c) {f : FunctionRef}
    {r : FunctionRecord} (known : ctx.function f = .ok r) (stays : ¬V f.value.index)
    (blocksStay : ∀ b ∈ r.blocks, ¬B b.index) :
    ∃ c', c.eraseFunctionTree f = .ok c' ∧
      ctx.Entombs frame (fun k => V k ∨ ctx.FunctionHolds f k)
        (fun k => B k ∨ ctx.FunctionHoldsBlock f k) c' := by
  obtain ⟨value, held, kind⟩ := function_eq_ok.mp known
  have known' : c.function f = .ok r :=
    function_eq_ok.mpr ⟨value, e.value.mpr ⟨held, stays⟩, kind⟩
  obtain ⟨bodiless, walked, e₁⟩ := eraseBlockTrees_spec wf e (wf.functionSound known).blocksNodup
    (fun b mem => by
      obtain ⟨br, read, _⟩ := wf.function_block known mem
      exact ⟨br, read⟩) blocksStay
  obtain ⟨bare, stripped, e₂⟩ := e₁.eraseValues fun a mem => by
    obtain ⟨_, argued, _⟩ := wf.function_argument known mem
    obtain ⟨record, read, _⟩ := argument_eq_ok.mp argued
    exact ⟨record, read⟩
  obtain ⟨c', erased, e₃⟩ := e₂.eraseValue held
  refine ⟨c', Checked.bind_eq_ok.mpr ⟨r, known', Checked.bind_eq_ok.mpr ⟨bodiless, walked,
    Checked.bind_eq_ok.mpr ⟨bare, stripped, erased⟩⟩⟩, ?_⟩
  have only {P : FunctionRecord → Prop} : (∃ r', ctx.function f = .ok r' ∧ P r') ↔ P r := by
    simp [known]
  refine e₃.congr ?_ ?_
  · intro k
    rw [FunctionHolds, only]
    grind
  · intro k
    rw [FunctionHoldsBlock, only]

/-- What one function holds is not held by another. -/
theorem FunctionHolds.apart (wf : ctx.WellFormed) {f g : FunctionRef} {fr gr : FunctionRecord}
    (known : ctx.function f = .ok fr) (known' : ctx.function g = .ok gr) (different : f ≠ g) :
    ¬ctx.FunctionHolds f g.value.index ∧ ∀ b ∈ gr.blocks, ¬ctx.FunctionHoldsBlock f b.index := by
  obtain ⟨value, held, kind⟩ := function_eq_ok.mp known'
  have self : ∀ {v : ValueRef} {r : ValueRecord}, ctx.value v = .ok r →
      v.index = g.value.index → v = g.value := by
    intro v r read same
    rw [← value_self read, ← value_self held, same]
  constructor
  · rintro (same | ⟨fr', known'', inside⟩)
    · obtain ⟨_, read, _⟩ := function_eq_ok.mp known
      refine different ?_
      rw [← function_self known, ← function_self known', same]
    · rcases inside with ⟨a, mem, same⟩ | ⟨b, mem, br, read, i, inside, same⟩
      · obtain ⟨ar, argued, _⟩ := wf.function_argument known'' mem
        obtain ⟨record, read, kind'⟩ := argument_eq_ok.mp argued
        rw [self read same, held] at read
        obtain rfl := Except.ok.inj read
        rw [kind] at kind'
        cases kind'
      · obtain ⟨ir, made, _⟩ := wf.block_instruction read inside
        obtain ⟨record, read', kind'⟩ := instruction_eq_ok.mp made
        rw [self read' same, held] at read'
        obtain rfl := Except.ok.inj read'
        rw [kind] at kind'
        cases kind'
  · rintro b mem ⟨fr', known'', b', mem', same⟩
    obtain ⟨br, read, home⟩ := wf.function_block known' mem
    obtain ⟨br', read', home'⟩ := wf.function_block known'' mem'
    have together : b' = b := by rw [← block_self read, ← block_self read', same]
    rw [together, read] at read'
    obtain rfl := Except.ok.inj read'
    rw [home] at home'
    exact different (Option.some.inj home').symm

theorem eraseFunctionTrees_spec (wf : ctx.WellFormed) (e : ctx.Entombs frame V B c)
    {fs : List FunctionRef} (nodup : fs.Nodup) (live : ∀ f ∈ fs, ∃ r, ctx.function f = .ok r)
    (stay : ∀ f ∈ fs, ¬V f.value.index ∧
      ∀ r, ctx.function f = .ok r → ∀ b ∈ r.blocks, ¬B b.index) :
    ∃ c', fs.foldlM eraseFunctionTree c = .ok c' ∧
      ctx.Entombs frame (fun k => V k ∨ ∃ f ∈ fs, ctx.FunctionHolds f k)
        (fun k => B k ∨ ∃ f ∈ fs, ctx.FunctionHoldsBlock f k) c' := by
  induction fs generalizing c V B with
  | nil => exact ⟨c, rfl, e.congr (by simp) (by simp)⟩
  | cons f rest ih =>
    rw [List.forall_mem_cons] at live stay
    obtain ⟨fresh, nodup⟩ := List.nodup_cons.mp nodup
    obtain ⟨⟨r, known⟩, live⟩ := live
    obtain ⟨mid, first, e₁⟩ := eraseFunctionTree_spec wf e known stay.1.1 (stay.1.2 r known)
    obtain ⟨last, others, e₂⟩ := ih e₁ nodup live (by
      intro g mem
      obtain ⟨gr, known'⟩ := live g mem
      have different : f ≠ g := fun same => fresh (same ▸ mem)
      obtain ⟨apart, apartBlocks⟩ := FunctionHolds.apart wf known known' different
      refine ⟨fun gone => gone.elim (stay.2 g mem).1 apart, fun gr' again b inside gone => ?_⟩
      obtain rfl : gr = gr' := by simpa [known'] using again
      exact gone.elim ((stay.2 g mem).2 gr known' b inside) (apartBlocks b inside))
    refine ⟨last, Checked.foldlM_cons_eq_ok.mpr ⟨mid, first, others⟩,
      e₂.congr (fun k => ?_) (fun k => ?_)⟩ <;>
    simp only [List.mem_cons, exists_eq_or_imp, or_assoc]

end Context
end ModuleIR
