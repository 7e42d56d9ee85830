import ModuleIR.Proofs.Steps.Instructions

set_option autoImplicit false

/-!
# Making and inserting blocks

A block that is inserted is listed by its function and points back to it, in one change. Everything
its instructions use has been looked up before, and found to be usable in the function; again the
targets of branches are not looked up.
-/
namespace ModuleIR

def FunctionRecord.withBlock (r : FunctionRecord) (b : BlockRef) (position : Nat) :
    FunctionRecord :=
  { r with blocks := r.blocks.insertIdx position b }

namespace Context

/-- Growth by which a detached block gets a function, and no instruction is added. -/
structure Places (ctx ctx' : Context) (b : BlockRef) (f : FunctionRef) : Prop
    extends ctx.Grows ctx' where
  instructions : ∀ i r', ctx'.instruction i = .ok r' → ∃ r, ctx.instruction i = .ok r
  loose : ∃ r, ctx.block b = .ok r ∧ r.parent = none
  placed : ∃ r, ctx'.block b = .ok r ∧ r.parent = some f
  parents : ∀ c r r', c ≠ b → ctx.block c = .ok r → ctx'.block c = .ok r' → r'.parent = r.parent

variable {ctx ctx' ctx'' : Context} {b : BlockRef} {f : FunctionRef}

theorem Places.extends (p : ctx.Places ctx' b f) (e : ctx'.Extends ctx'') :
    ctx.Places ctx'' b f where
  toGrows := p.toGrows.trans e.toGrows
  instructions i r'' read := by
    obtain ⟨r', read'⟩ := e.instructions i r'' read
    exact p.instructions i r' read'
  loose := p.loose
  placed := by
    obtain ⟨r, read, parent⟩ := p.placed
    obtain ⟨r', read', step⟩ := e.block read
    exact ⟨r', read', step.parent f parent⟩
  parents c r r'' other read read'' := by
    obtain ⟨r', read', _⟩ := p.block read
    exact (e.parents c r' r'' read' read'').trans (p.parents c r r' other read read')

def placeBlock (ctx : Context) (b : BlockRef) (f : FunctionRef) (position : Nat) : Context :=
  (ctx.modifyFunction f (·.withBlock b position)).modifyBlock b ({ · with parent := some f })

section PlaceBlock

variable {position : Nat} {br : BlockRecord} {fr : FunctionRecord}

theorem blocks_placeBlock (i : Nat) : (ctx.placeBlock b f position).blocks[i]? =
    if b.index = i then ctx.blocks[i]?.map ({ · with parent := some f }) else ctx.blocks[i]? :=
  blocks_modifyBlock _ _ _

theorem values_placeBlock (i : Nat) : (ctx.placeBlock b f position).values[i]? =
    if f.value.index = i then ctx.values[i]?.map fun record =>
      match record.kind with
      | .function function => { record with kind := .function (function.withBlock b position) }
      | _ => record
    else ctx.values[i]? :=
  values_modifyValue _ _ _

theorem instruction_placeBlock (known : ctx.function f = .ok fr) {i : InstructionRef}
    {r : InstructionRecord} :
    (ctx.placeBlock b f position).instruction i = .ok r ↔ ctx.instruction i = .ok r := by
  obtain ⟨value, held, kind⟩ := function_eq_ok.mp known
  obtain ⟨owner, stored, _⟩ := value_eq_ok.mp held
  have reads (k : Nat) : (∃ record, (ctx.placeBlock b f position).values[k]? = some record ∧
        record.kind ≠ .erased ∧ record.kind = .instruction r) ↔
      ∃ record, ctx.values[k]? = some record ∧ record.kind ≠ .erased ∧
        record.kind = .instruction r := by
    rw [values_placeBlock]
    split
    · rename_i same
      rw [← same, stored]
      simp [kind]
    · rfl
  simp only [instruction_eq_ok, value_eq_ok]
  constructor
  · rintro ⟨record, ⟨owned, found, live⟩, content⟩
    obtain ⟨old, found', live', content'⟩ := (reads _).mp ⟨record, found, live, content⟩
    exact ⟨old, ⟨owned, found', live'⟩, content'⟩
  · rintro ⟨record, ⟨owned, found, live⟩, content⟩
    obtain ⟨new, found', live', content'⟩ := (reads _).mpr ⟨record, found, live, content⟩
    exact ⟨new, ⟨owned, found', live'⟩, content'⟩

theorem placeBlock_places (read : ctx.block b = .ok br) (loose : br.parent = none)
    (known : ctx.function f = .ok fr) : ctx.Places (ctx.placeBlock b f position) b f := by
  obtain ⟨owner, stored, live⟩ := block_eq_ok.mp read
  obtain ⟨value, held, kind⟩ := function_eq_ok.mp known
  obtain ⟨_, found, _⟩ := value_eq_ok.mp held
  have listing : ctx.Grows (ctx.modifyFunction f (·.withBlock b position)) := by
    refine modifyValue_grows fun record same => ?_
    obtain rfl : value = record := by simpa [found] using same
    simp only [kind]
    exact ⟨trivial, .function rfl rfl rfl (List.sublist_insertIdx _ _ _)⟩
  have growth : ctx.Grows (ctx.placeBlock b f position) := by
    refine listing.trans (modifyBlock_grows fun record same => ?_)
    obtain rfl : br = record := by
      rw [← Option.some.injEq, ← stored]
      exact same
    exact ⟨rfl, List.prefix_rfl, fun g h => by simp [loose] at h, fun dead => by simp [live] at dead⟩
  refine ⟨growth, fun i r h => ⟨r, (instruction_placeBlock known).mp h⟩, ⟨br, read, loose⟩, ?_, ?_⟩
  · refine ⟨{ br with parent := some f }, block_eq_ok.mpr ⟨owner, ?_, live⟩, rfl⟩
    rw [blocks_placeBlock, if_pos rfl, stored]
    rfl
  · intro c r r' other old new
    obtain ⟨owner', stored', _⟩ := block_eq_ok.mp old
    obtain ⟨_, stored'', _⟩ := block_eq_ok.mp new
    have different : b.index ≠ c.index := by
      intro same
      refine other ?_
      rw [← block_self old, ← block_self read, same]
    rw [blocks_placeBlock, if_neg different, stored'] at stored''
    obtain rfl := Option.some.inj stored''
    rfl

theorem function_placeBlock (known : ctx.function f = .ok fr) :
    (ctx.placeBlock b f position).function f = .ok (fr.withBlock b position) := by
  obtain ⟨value, held, kind⟩ := function_eq_ok.mp known
  obtain ⟨owner, found, _⟩ := value_eq_ok.mp held
  refine function_eq_ok.mpr ⟨{ value with kind := .function (fr.withBlock b position) },
    value_eq_ok.mpr ⟨owner, ?_, by simp⟩, rfl⟩
  rw [values_placeBlock, if_pos rfl, found]
  simp [kind]

theorem placeBlock_functionSound (wf : ctx.WellFormed) (read : ctx.block b = .ok br)
    (loose : br.parent = none) (known : ctx.function f = .ok fr)
    (inside : position ≤ fr.blocks.length) :
    (ctx.placeBlock b f position).FunctionSound f.value.index (fr.withBlock b position) := by
  have places : ctx.Places (ctx.placeBlock b f position) b f := placeBlock_places read loose known
  have sound := places.functionSound (wf.functionSound known)
  have self : (⟨⟨ctx.id, f.value.index⟩⟩ : FunctionRef) = f := function_self known
  obtain ⟨br', read', parent'⟩ := places.placed
  refine ⟨sound.signature, sound.listed, sound.args, ?_, ?_, sound.names⟩
  · intro c mem
    rcases (List.mem_insertIdx inside).mp mem with rfl | old
    · exact ⟨br', read', parent'.trans (congrArg some self.symm)⟩
    · exact sound.blocks c old
  · refine (List.perm_insertIdx _ _ inside).nodup_iff.mpr
      (List.nodup_cons.mpr ⟨?_, sound.blocksNodup⟩)
    intro mem
    obtain ⟨old, again, home⟩ := wf.function_block known mem
    obtain rfl := Checked.unique read again
    rw [loose] at home
    cases home

theorem placeBlock_blockSound (wf : ctx.WellFormed) (read : ctx.block b = .ok br)
    (loose : br.parent = none) (known : ctx.function f = .ok fr)
    (inside : position ≤ fr.blocks.length) :
    (ctx.placeBlock b f position).BlockSound b.index { br with parent := some f } := by
  have places : ctx.Places (ctx.placeBlock b f position) b f := placeBlock_places read loose known
  have growth := places.toGrows
  obtain ⟨value, held, _⟩ := function_eq_ok.mp known
  have old := growth.blockSound (wf.blockSound read)
  refine ⟨?_, old.tombstone, ?_, old.instructions, old.nodup⟩
  · intro g same
    obtain rfl := Option.some.inj same
    exact (value_eq_ok.mp held).1.trans growth.id.symm
  · intro _ g same
    obtain rfl := Option.some.inj same
    refine ⟨_, function_placeBlock known, (List.mem_insertIdx inside).mpr (.inl ?_)⟩
    change (⟨ctx.id, b.index⟩ : BlockRef) = b
    exact block_self read

theorem placeBlock_wellFormed (wf : ctx.WellFormed) (read : ctx.block b = .ok br)
    (loose : br.parent = none) (known : ctx.function f = .ok fr) (inside : position ≤ fr.blocks.length)
    (owned : ∀ i ∈ br.instructions, ∀ r, ctx.instruction i = .ok r →
      ∀ u ∈ r.operation.operands, u.ctx = ctx.id) :
    (ctx.placeBlock b f position).WellFormed := by
  obtain ⟨owner, stored, live⟩ := block_eq_ok.mp read
  obtain ⟨value, held, kind⟩ := function_eq_ok.mp known
  obtain ⟨_, found, _⟩ := value_eq_ok.mp held
  have places : ctx.Places (ctx.placeBlock b f position) b f := placeBlock_places read loose known
  have growth := places.toGrows
  refine wf.revise growth rfl rfl rfl ?_ ?_ (fun i r h => .inl h) ?_
  · intro i r h
    rw [values_placeBlock] at h
    split at h
    · rename_i same
      subst same
      rw [found] at h
      obtain rfl := Option.some.inj h
      simp only [kind]
      exact .inr ⟨⟨growth.hasType (wf.valueSound held).type,
        placeBlock_functionSound wf read loose known inside⟩, rfl⟩
    · exact .inl ⟨r, h, .refl r⟩
  · intro i r h
    rw [blocks_placeBlock] at h
    split at h
    · rename_i same
      subst same
      rw [stored] at h
      obtain rfl := Option.some.inj h
      exact .inr (placeBlock_blockSound wf read loose known inside)
    · exact .inl ⟨r, h, rfl⟩
  · intro i r h u mem
    have old := (instruction_placeBlock known).mp h
    rcases wf.operands i r old u mem with own | ⟨returned, br'', held', loose'⟩
    · exact .inl own
    · by_cases same : r.parent = b
      · obtain ⟨host, held'', member⟩ := wf.instruction_listed old
        rw [same, read] at held''
        obtain rfl := Except.ok.inj held''
        exact .inl (owned i member r old u mem)
      · obtain ⟨after, reread, _⟩ := growth.block held'
        exact .inr ⟨returned, after, reread,
          (places.parents _ _ _ same held' reread).trans loose'⟩

end PlaceBlock

/-! ### What is checked on insertion -/

theorem operandsOf_operands {is : List InstructionRef} {operands : List ValueRef}
    (h : ctx.operandsOf is = .ok operands) :
    ∀ i ∈ is, ∃ r, ctx.instruction i = .ok r ∧ ∀ u ∈ r.operation.operands, u ∈ operands := by
  induction is generalizing operands with
  | nil => simp
  | cons i rest ih =>
    simp only [operandsOf, Checked.bind_eq_ok, operation_eq_ok] at h
    obtain ⟨operation, ⟨r, read, rfl⟩, others, listed, same⟩ := h
    obtain rfl : r.operation.operands ++ others = operands := by simpa using same
    rw [List.forall_mem_cons]
    refine ⟨⟨r, read, fun u mem => List.mem_append_left _ mem⟩, fun j mem => ?_⟩
    obtain ⟨r', read', inside⟩ := ih listed j mem
    exact ⟨r', read', fun u mem => List.mem_append_right _ (inside u mem)⟩

theorem blockPosition_le {before : Option BlockRef} {position : Nat}
    (found : ctx.blockPosition f before = .ok position) :
    ∃ fr, ctx.function f = .ok fr ∧ position ≤ fr.blocks.length := by
  obtain ⟨fr, known, found⟩ := Checked.bind_eq_ok.mp found
  refine ⟨fr, known, ?_⟩
  cases before with
  | none =>
    obtain rfl : fr.blocks.length = position := by simpa using found
    exact Nat.le_refl _
  | some sibling =>
    cases place : fr.blocks.idxOf? sibling with
    | none =>
      simp only [place] at found
      obtain ⟨_, _, impossible⟩ := Checked.bind_eq_ok.mp found
      cases impossible
    | some i =>
      obtain rfl : i = position := by simpa [place] using found
      exact Nat.le_of_lt (List.findIdx?_eq_some_iff_getElem.mp place).1

theorem checkInsertion_usable {u : Unit} (h : ctx.checkInsertion b f = .ok u) :
    ∃ br fr, ctx.block b = .ok br ∧ ctx.function f = .ok fr ∧
      ∀ i ∈ br.instructions, ∃ r, ctx.instruction i = .ok r ∧ ∀ v ∈ r.operation.operands,
        ∃ anchor, ctx.anchor v = .ok anchor ∧ anchor.Within fr.module (some f) false := by
  simp only [checkInsertion, Checked.bind_eq_ok] at h
  obtain ⟨br, read, operands, listed, fr, known, fault, found, h⟩ := h
  refine ⟨br, fr, read, known, fun i mem => ?_⟩
  obtain ⟨r, made, inside⟩ := operandsOf_operands listed i mem
  refine ⟨r, made, fun v operand => ?_⟩
  cases fault with
  | none => exact scopeFault_eq_none.mp (firstScopeFault_eq_none.mp found v (inside v operand))
  | some fault =>
    obtain ⟨_, _, impossible⟩ := Checked.bind_eq_ok.mp h
    cases impossible

theorem checkInsertion_owned {u : Unit} {br : BlockRecord} (read : ctx.block b = .ok br)
    (h : ctx.checkInsertion b f = .ok u) : ∀ i ∈ br.instructions, ∀ r, ctx.instruction i = .ok r →
      ∀ v ∈ r.operation.operands, v.ctx = ctx.id := by
  intro i mem r made v operand
  obtain ⟨br', fr, read', _, usable⟩ := checkInsertion_usable h
  obtain rfl := Checked.unique read read'
  obtain ⟨r', made', within⟩ := usable i mem
  obtain rfl := Checked.unique made made'
  obtain ⟨anchor, home, _⟩ := within v operand
  obtain ⟨record, held⟩ := (anchored_of_anchor home).live
  exact (value_eq_ok.mp held).1

theorem pushBlock_grows (name : Option String) :
    ctx.Grows { ctx with blocks := ctx.blocks.push { name } } where
  id := rfl
  types _ _ h := h
  values _ r h := ⟨r, h, rfl, .same _⟩
  blocks _ r h := ⟨r, getElem?_push_of_some h, .refl r⟩
  modules _ r h := ⟨r, h, .refl r⟩
  emptyModules _ h := h

end Context

namespace Build

open Context

variable {ctx ctx' : Context}

/-- A block that is inserted is checked and placed; then its name and those of its instructions are
entered. -/
theorem insertBlock_parts {b : BlockRef} {f : FunctionRef} {before : Option BlockRef} {u : Unit}
    (run : (insertBlock b f before ctx).result = .ok (u, ctx')) :
    ∃ br fr position mid br', ctx.block b = .ok br ∧ br.parent = none ∧ ctx.function f = .ok fr ∧
      ctx.blockPosition f before = .ok position ∧ position ≤ fr.blocks.length ∧
      ctx.checkInsertion b f = .ok () ∧
      (adoptBlockName f b (ctx.placeBlock b f position)).result = .ok ((), mid) ∧
      mid.block b = .ok br' ∧ (adoptNames f br'.instructions mid).result = .ok ((), ctx') := by
  obtain ⟨br, _, looked, run⟩ := bind_eq_ok.mp run
  obtain ⟨read, rfl⟩ := read_eq_ok.mp looked
  cases parent : br.parent with
  | some existing =>
    simp only [parent, bind_eq_ok, fail_eq_ok] at run
    obtain ⟨_, _, _, _, _, impossible, _⟩ := run
    exact impossible.elim
  | none =>
    simp only [parent, modifyFunction, bind_eq_ok, read_eq_ok, change_eq_ok, emit_eq_ok] at run
    obtain ⟨position, _, ⟨found, rfl⟩, _, _, ⟨checked, rfl⟩, _, _, ⟨fr, _, ⟨known, rfl⟩, rfl⟩, _, _, rfl,
      _, mid, entered, br', _, ⟨read', rfl⟩, _, last, adopted, _, _, ⟨_, rfl⟩, _, _, ⟨_, rfl⟩, rfl⟩ := run
    obtain ⟨fr', known', inside⟩ := blockPosition_le found
    obtain rfl := Checked.unique known' known
    exact ⟨br, fr', position, mid, br', read, parent, known, found, inside, checked, entered, read',
      adopted⟩

theorem insertBlock_spec (wf : ctx.WellFormed) {b : BlockRef} {f : FunctionRef}
    {before : Option BlockRef} {u : Unit}
    (run : (insertBlock b f before ctx).result = .ok (u, ctx')) :
    ctx.Places ctx' b f ∧ ctx'.WellFormed ∧
      ∃ br fr, ctx.block b = .ok br ∧ ctx.function f = .ok fr ∧
        ∀ i ∈ br.instructions, ∃ r, ctx.instruction i = .ok r ∧ ∀ v ∈ r.operation.operands,
          ∃ anchor, ctx.anchor v = .ok anchor ∧ anchor.Within fr.module (some f) false := by
  obtain ⟨br, fr, position, mid, _, read, loose, known, _, inside, checked, entered, _, adopted⟩ :=
    insertBlock_parts run
  obtain ⟨br', fr', read', known', usable⟩ := checkInsertion_usable checked
  obtain rfl := Checked.unique read read'
  have places : ctx.Places (ctx.placeBlock b f position) b f := placeBlock_places read loose known
  have wf₁ : (ctx.placeBlock b f position).WellFormed :=
    placeBlock_wellFormed wf read loose known inside (checkInsertion_owned read checked)
  obtain ⟨extends₂, wf₂⟩ := adoptBlockName_spec wf₁ entered
  obtain ⟨extends₃, wf₃⟩ := adoptNames_spec wf₂ adopted
  exact ⟨(places.extends extends₂).extends extends₃, wf₃, br, fr', read, known', usable⟩

theorem addBlock_spec (wf : ctx.WellFormed) (name : Option String) :
    ctx.Extends { ctx with blocks := ctx.blocks.push { name } } ∧
      ({ ctx with blocks := ctx.blocks.push { name } } : Context).WellFormed := by
  have growth : ctx.Grows { ctx with blocks := ctx.blocks.push { name } } := pushBlock_grows name
  have extension : ctx.Extends { ctx with blocks := ctx.blocks.push { name } } :=
    { toGrows := growth
      instructions := fun i r h => ⟨r, (instruction_congr rfl rfl i).symm.trans h⟩
      parents := by
        intro b r r' h h'
        obtain ⟨_, stored, _⟩ := block_eq_ok.mp h
        obtain ⟨_, stored', _⟩ := block_eq_ok.mp h'
        obtain rfl : r = r' :=
          Option.some.inj ((getElem?_push_of_some stored).symm.trans stored')
        rfl }
  refine ⟨extension, wf.revise growth rfl rfl rfl (fun i r h => .inl ⟨r, h, .refl r⟩) ?_
    (fun i r h => .inl h) (extension.operandOwned wf)⟩
  intro i r h
  change (ctx.blocks.push _)[i]? = _ at h
  rw [Array.getElem?_push] at h
  split at h
  · obtain rfl := Option.some.inj h
    exact .inr ⟨by simp, by simp, by simp, by simp, List.nodup_nil⟩
  · exact .inl ⟨r, h, rfl⟩

/-- A new block is in the function it is made in, and no block that exists is touched. -/
theorem createBlock_spec (wf : ctx.WellFormed) {name : String} {parent : Option FunctionRef}
    {before : Option BlockRef} {b : BlockRef}
    (run : (createBlock name parent before ctx).result = .ok (b, ctx')) :
    ctx.Extends ctx' ∧ ctx'.WellFormed ∧ ∃ r, ctx'.block b = .ok r := by
  obtain ⟨b', grown, made, run⟩ := bind_eq_ok.mp run
  obtain ⟨rfl, rfl⟩ := Prod.mk.inj (update_eq_ok.mp made)
  obtain ⟨extends₁, wf₁⟩ := addBlock_spec wf (looseName name)
  cases parent with
  | none =>
    simp only [bind_eq_ok, require_eq_ok, pure_eq_ok] at run
    obtain ⟨_, _, ⟨_, rfl⟩, rfl, rfl⟩ := run
    exact ⟨extends₁, wf₁, _, block_eq_ok.mpr ⟨rfl, Array.getElem?_push_size, rfl⟩⟩
  | some f =>
    simp only [bind_eq_ok, pure_eq_ok] at run
    obtain ⟨_, last, inserted, rfl, rfl⟩ := run
    obtain ⟨places, wf₂, _⟩ := insertBlock_spec wf₁ inserted
    obtain ⟨r, placed, _⟩ := places.placed
    refine ⟨?_, wf₂, r, placed⟩
    exact
      { toGrows := extends₁.toGrows.trans places.toGrows
        instructions := by
          intro i r'' h
          obtain ⟨r', h'⟩ := places.instructions i r'' h
          exact extends₁.instructions i r' h'
        parents := by
          intro c r r'' h h''
          have other : c ≠ ⟨ctx.id, ctx.blocks.size⟩ := by
            rintro rfl
            have inside := (Array.getElem?_eq_some_iff.mp (block_eq_ok.mp h).2.1).1
            exact absurd inside (Nat.lt_irrefl _)
          obtain ⟨r', h', _⟩ := extends₁.block h
          exact (places.parents c r' r'' other h' h'').trans (extends₁.parents c r r' h h') }

end Build
end ModuleIR
