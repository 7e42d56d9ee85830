import ModuleIR.Build.Constants
import ModuleIR.Proofs.Arena.WellFormed

set_option autoImplicit false

/-!
# Elementary changes

What adding and rewriting one record does to the arenas, and when it is growth.
-/
namespace ModuleIR

theorem getElem?_push_of_some {α : Type} {xs : Array α} {i : Nat} {x y : α}
    (h : xs[i]? = some x) : (xs.push y)[i]? = some x := by
  have inside : i < xs.size := (Array.getElem?_eq_some_iff.mp h).1
  rw [Array.getElem?_push, if_neg (by omega), h]

namespace Context

variable {ctx : Context}

/-! ### Adding a value -/

theorem values_allocValue (r : ValueRecord) (i : Nat) :
    (ctx.allocValue r).2.values[i]? = if i = ctx.values.size then some r else ctx.values[i]? :=
  Array.getElem?_push

theorem value_allocValue {r r' : ValueRecord} {v : ValueRef} (live : r.kind ≠ .erased) :
    (ctx.allocValue r).2.value v = .ok r' ↔
      ctx.value v = .ok r' ∨ (v = ⟨ctx.id, ctx.values.size⟩ ∧ r' = r) := by
  rw [value_eq_ok, value_eq_ok, values_allocValue]
  change v.ctx = ctx.id ∧ _ ↔ _
  cases v with
  | mk owner index =>
    by_cases last : index = ctx.values.size
    · have beyond : ctx.values[index]? = none := by simp [last]
      simp only [last, ite_true, Option.some.injEq, ValueRef.mk.injEq, and_true]
      rw [← last, beyond]
      constructor
      · rintro ⟨owner, rfl, _⟩
        exact .inr ⟨owner, rfl⟩
      · rintro (⟨_, impossible, _⟩ | ⟨owner, rfl⟩)
        · cases impossible
        · exact ⟨owner, rfl, live⟩
    · simp [last]

theorem value_next_ne_ok {r : ValueRecord} : ctx.value ⟨ctx.id, ctx.values.size⟩ ≠ .ok r := by
  intro read
  have inside := (Array.getElem?_eq_some_iff.mp (value_eq_ok.mp read).2.1).1
  exact absurd inside (Nat.lt_irrefl _)

theorem allocValue_grows (r : ValueRecord) : ctx.Grows (ctx.allocValue r).2 where
  id := rfl
  types _ _ h := h
  values _ r' h := ⟨r', getElem?_push_of_some h, rfl, .same _⟩
  blocks _ r' h := ⟨r', h, .refl r'⟩
  modules _ r' h := ⟨r', h, .refl r'⟩
  emptyModules _ h := h

/-! ### Rewriting a value -/

theorem values_modifyValue (v : ValueRef) (f : ValueRecord → ValueRecord) (i : Nat) :
    (ctx.modifyValue v f).values[i]? =
      if v.index = i then ctx.values[i]?.map f else ctx.values[i]? :=
  Array.getElem?_modify

theorem value_modifyValue {v u : ValueRef} {r r' : ValueRecord} {f : ValueRecord → ValueRecord}
    (read : ctx.value v = .ok r) (alive : (f r).kind ≠ .erased) :
    (ctx.modifyValue v f).value u = .ok r' ↔
      (u = v ∧ r' = f r) ∨ (u ≠ v ∧ ctx.value u = .ok r') := by
  obtain ⟨owner, stored, _⟩ := value_eq_ok.mp read
  rw [value_eq_ok, value_eq_ok, values_modifyValue]
  change u.ctx = ctx.id ∧ _ ↔ _
  by_cases same : u = v
  · subst same
    simp only [ite_true, stored, Option.map_some, Option.some.injEq, true_and, ne_eq,
      not_true_eq_false, false_and, or_false]
    constructor
    · rintro ⟨_, rfl, _⟩
      rfl
    · rintro rfl
      exact ⟨owner, rfl, alive⟩
  · simp only [same, false_and, ne_eq, not_false_eq_true, true_and, false_or]
    refine and_congr_right fun owner' => ?_
    have apart : v.index ≠ u.index := by
      intro index
      apply same
      cases u
      cases v
      exact ValueRef.mk.injEq .. ▸ ⟨owner'.trans owner.symm, index.symm⟩
    rw [if_neg apart]

theorem value_modifyFunction {f : FunctionRef} {v : ValueRef} {r r' : ValueRecord}
    {fr : FunctionRecord} {change : FunctionRecord → FunctionRecord}
    (read : ctx.value f.value = .ok r) (kind : r.kind = .function fr) :
    (ctx.modifyFunction f change).value v = .ok r' ↔
      (v = f.value ∧ r' = { r with kind := .function (change fr) }) ∨
        (v ≠ f.value ∧ ctx.value v = .ok r') := by
  refine (value_modifyValue read ?_).trans ?_
  · simp [kind]
  · simp [kind]

theorem modifyValue_grows {v : ValueRef} {f : ValueRecord → ValueRecord}
    (kept : ∀ r, ctx.values[v.index]? = some r → (f r).type = r.type ∧ r.kind.Becomes (f r).kind) :
    ctx.Grows (ctx.modifyValue v f) where
  id := rfl
  types _ _ h := h
  values i r h := by
    rw [values_modifyValue]
    split
    · rename_i same
      subst same
      exact ⟨f r, by simp [h], kept r h⟩
    · exact ⟨r, h, rfl, .same _⟩
  blocks _ r h := ⟨r, h, .refl r⟩
  modules _ r h := ⟨r, h, .refl r⟩
  emptyModules _ h := h

/-! ### Rewriting a block -/

theorem blocks_modifyBlock (b : BlockRef) (f : BlockRecord → BlockRecord) (i : Nat) :
    (ctx.modifyBlock b f).blocks[i]? =
      if b.index = i then ctx.blocks[i]?.map f else ctx.blocks[i]? :=
  Array.getElem?_modify

theorem block_modifyBlock {b c : BlockRef} {r r' : BlockRecord} {f : BlockRecord → BlockRecord}
    (read : ctx.block b = .ok r) (alive : (f r).erased = false) :
    (ctx.modifyBlock b f).block c = .ok r' ↔
      (c = b ∧ r' = f r) ∨ (c ≠ b ∧ ctx.block c = .ok r') := by
  obtain ⟨owner, stored, _⟩ := block_eq_ok.mp read
  rw [block_eq_ok, block_eq_ok, blocks_modifyBlock]
  change c.ctx = ctx.id ∧ _ ↔ _
  by_cases same : c = b
  · subst same
    simp only [ite_true, stored, Option.map_some, Option.some.injEq, true_and, ne_eq,
      not_true_eq_false, false_and, or_false]
    constructor
    · rintro ⟨_, rfl, _⟩
      rfl
    · rintro rfl
      exact ⟨owner, rfl, alive⟩
  · simp only [same, false_and, ne_eq, not_false_eq_true, true_and, false_or]
    refine and_congr_right fun owner' => ?_
    have apart : b.index ≠ c.index := by
      intro index
      apply same
      cases b
      cases c
      exact BlockRef.mk.injEq .. ▸ ⟨owner'.trans owner.symm, index.symm⟩
    rw [if_neg apart]

theorem modifyBlock_grows {b : BlockRef} {f : BlockRecord → BlockRecord}
    (kept : ∀ r, ctx.blocks[b.index]? = some r → r.Becomes (f r)) :
    ctx.Grows (ctx.modifyBlock b f) where
  id := rfl
  types _ _ h := h
  values _ r h := ⟨r, h, rfl, .same _⟩
  blocks i r h := by
    rw [blocks_modifyBlock]
    split
    · rename_i same
      subst same
      exact ⟨f r, by simp [h], kept r h⟩
    · exact ⟨r, h, .refl r⟩
  modules _ r h := ⟨r, h, .refl r⟩
  emptyModules _ h := h

/-! ### Rewriting a module -/

theorem modules_modifyModule (m : ModuleRef) (f : ModuleRecord → ModuleRecord) (i : Nat) :
    (ctx.modifyModule m f).modules[i]? =
      if m.index = i then ctx.modules[i]?.map (Option.map f) else ctx.modules[i]? :=
  Array.getElem?_modify

theorem module_modifyModule {m n : ModuleRef} {r r' : ModuleRecord} {f : ModuleRecord → ModuleRecord}
    (read : ctx.module m = .ok r) :
    (ctx.modifyModule m f).module n = .ok r' ↔
      (n = m ∧ r' = f r) ∨ (n ≠ m ∧ ctx.module n = .ok r') := by
  obtain ⟨owner, stored⟩ := module_eq_ok.mp read
  rw [module_eq_ok, module_eq_ok, modules_modifyModule]
  change n.ctx = ctx.id ∧ _ ↔ _
  by_cases same : n = m
  · subst same
    simp [stored, owner, eq_comm]
  · simp only [same, false_and, ne_eq, not_false_eq_true, true_and, false_or]
    refine and_congr_right fun owner' => ?_
    have apart : m.index ≠ n.index := by
      intro index
      apply same
      cases m
      cases n
      exact ModuleRef.mk.injEq .. ▸ ⟨owner'.trans owner.symm, index.symm⟩
    rw [if_neg apart]

theorem modifyModule_grows {m : ModuleRef} {f : ModuleRecord → ModuleRecord}
    (kept : ∀ r, ctx.modules[m.index]? = some (some r) → r.Becomes (f r)) :
    ctx.Grows (ctx.modifyModule m f) where
  id := rfl
  types _ _ h := h
  values _ r h := ⟨r, h, rfl, .same _⟩
  blocks _ r h := ⟨r, h, .refl r⟩
  modules i r h := by
    rw [modules_modifyModule]
    split
    · rename_i same
      subst same
      exact ⟨f r, by simp [h], kept r h⟩
    · exact ⟨r, h, .refl r⟩
  emptyModules i h := by
    rw [modules_modifyModule]
    split <;> simp [h]

/-! ### What a change of one arena leaves readable -/

theorem shape_congr {ctx' : Context} (id : ctx'.id = ctx.id) (types : ctx'.types = ctx.types)
    (t : TypeRef) : ctx'.shape t = ctx.shape t := by
  simp only [Context.shape, checkOwner, id, types]

theorem value_congr {ctx' : Context} (id : ctx'.id = ctx.id) (values : ctx'.values = ctx.values)
    (v : ValueRef) : ctx'.value v = ctx.value v := by
  simp only [Context.value, checkOwner, id, values]

theorem block_congr {ctx' : Context} (id : ctx'.id = ctx.id) (blocks : ctx'.blocks = ctx.blocks)
    (b : BlockRef) : ctx'.block b = ctx.block b := by
  simp only [Context.block, checkOwner, id, blocks]

theorem module_congr {ctx' : Context} (id : ctx'.id = ctx.id)
    (modules : ctx'.modules = ctx.modules) (m : ModuleRef) : ctx'.module m = ctx.module m := by
  simp only [Context.module, checkOwner, id, modules]

theorem instruction_congr {ctx' : Context} (id : ctx'.id = ctx.id)
    (values : ctx'.values = ctx.values) (i : InstructionRef) :
    ctx'.instruction i = ctx.instruction i := by
  simp only [Context.instruction, value_congr id values]

/-- Growth that leaves the blocks as they are and makes no value an instruction adds no body. -/
theorem Grows.extends_of_instructions {ctx' : Context} (g : ctx.Grows ctx')
    (blocks : ctx'.blocks = ctx.blocks)
    (old : ∀ (i : Nat) r' ir', ctx'.values[i]? = some r' → r'.kind = .instruction ir' →
      ∃ r ir, ctx.values[i]? = some r ∧ r.kind = .instruction ir) : ctx.Extends ctx' where
  toGrows := g
  instructions i ir' h := by
    obtain ⟨r', read, kind'⟩ := instruction_eq_ok.mp h
    obtain ⟨owner, stored', _⟩ := value_eq_ok.mp read
    obtain ⟨r, ir, stored, kind⟩ := old _ r' ir' stored' kind'
    have live : r.kind ≠ .erased := by simp [kind]
    exact ⟨ir, instruction_eq_ok.mpr ⟨r, value_eq_ok.mpr ⟨owner.trans g.id, stored, live⟩, kind⟩⟩
  parents b r r' h h' := by
    rw [block_congr g.id blocks, h, Except.ok.injEq] at h'
    rw [h']

theorem Grows.extends {ctx' : Context} (g : ctx.Grows ctx') (values : ctx'.values = ctx.values)
    (blocks : ctx'.blocks = ctx.blocks) : ctx.Extends ctx' :=
  g.extends_of_instructions blocks fun _ r' ir' stored kind => ⟨r', ir', values ▸ stored, kind⟩

/-! ### Well-formedness of changes -/

variable {ctx' : Context}

theorem Extends.operandOwned (e : ctx.Extends ctx') (wf : ctx.WellFormed) :
    ∀ i r, ctx'.instruction i = .ok r → ∀ u ∈ r.operation.operands, ctx'.OperandOwned r u := by
  intro i r' read' u mem
  obtain ⟨r, read⟩ := e.instructions i r' read'
  obtain ⟨same, read'', parent, operation⟩ := e.instruction read
  obtain rfl : r' = same := by simpa [read'] using read''
  rw [Operation.operands_eq_of_bare operation] at mem
  rcases wf.operands i r read u mem with owned | ⟨returned, b, block, loose⟩
  · exact .inl (owned.trans e.id.symm)
  · obtain ⟨b', block', _⟩ := e.block block
    rw [returned] at operation
    exact .inr ⟨Operation.bare_eq_ret.mp operation, b', parent ▸ block',
      (e.parents _ b b' block block').trans loose⟩

/-- A change of records other than types and constants. -/
theorem WellFormed.revise (wf : ctx.WellFormed) (g : ctx.Grows ctx')
    (types : ctx'.types = ctx.types) (typeTable : ctx'.typeTable = ctx.typeTable)
    (constantTable : ctx'.constantTable = ctx.constantTable)
    (values : ∀ (i : Nat) r', ctx'.values[i]? = some r' →
      (∃ r, ctx.values[i]? = some r ∧ Alike r r') ∨
        (ctx'.ValueSound i r' ∧ r'.kind.key? = none))
    (blocks : ∀ (i : Nat) r', ctx'.blocks[i]? = some r' →
      (∃ r, ctx.blocks[i]? = some r ∧ r' = { r with name := r'.name }) ∨ ctx'.BlockSound i r')
    (modules : ∀ (i : Nat) r', ctx'.modules[i]? = some (some r') →
      ctx.modules[i]? = some (some r') ∨ ctx'.ModuleSound i r')
    (operands : ∀ i r, ctx'.instruction i = .ok r → ∀ u ∈ r.operation.operands,
      ctx'.OperandOwned r u) : ctx'.WellFormed := by
  refine wf.grow g ?_ ?_ ?_ blocks modules operands ?_ ?_
  · intro i shape h
    exact .inl (types ▸ h)
  · intro shape t
    rw [typeTable, shape_congr g.id types]
    exact wf.typeTable shape t
  · intro i r' h
    exact (values i r' h).imp_right And.left
  · intro key v h
    exact .inl (constantTable ▸ h)
  · intro v r' key read key?
    obtain ⟨owner, stored, live⟩ := value_eq_ok.mp read
    rcases values _ r' stored with ⟨r, old, alike⟩ | ⟨_, none⟩
    · rw [constantTable]
      rw [alike.key?_eq] at key?
      have live' : r.kind ≠ .erased := by
        rintro erased
        rw [erased] at key?
        cases key?
      exact wf.tabled v r key (value_eq_ok.mpr ⟨owner.trans g.id, old, live'⟩) key?
    · rw [none] at key?
      cases key?

end Context
end ModuleIR
