import ModuleIR.Proofs.Arena.Changes
import ModuleIR.Proofs.Steps.Results

set_option autoImplicit false

/-!
# Making types and constants

A type or constant that is asked for is found in its table or added at the end of its arena. Either
way the context is extended, stays well-formed, and the handle answered names what was asked for.
-/
namespace ModuleIR

namespace Context

variable {ctx ctx' : Context}

/-! ### Types -/

def addType (ctx : Context) (shape : Shape) : Context :=
  { ctx with
    types := ctx.types.push shape
    typeTable := ctx.typeTable.insert shape ⟨ctx.id, ctx.types.size⟩ }

theorem addType_grows (shape : Shape) : ctx.Grows (ctx.addType shape) where
  id := rfl
  types _ _ h := getElem?_push_of_some h
  values _ r h := ⟨r, h, rfl, .same _⟩
  blocks _ r h := ⟨r, h, .refl r⟩
  modules _ r h := ⟨r, h, .refl r⟩
  emptyModules _ h := h

theorem shape_addType {shape other : Shape} {t : TypeRef} :
    (ctx.addType shape).shape t = .ok other ↔
      ctx.shape t = .ok other ∨ (t = ⟨ctx.id, ctx.types.size⟩ ∧ other = shape) := by
  rw [shape_eq_ok, shape_eq_ok]
  change t.ctx = ctx.id ∧ (ctx.types.push shape)[t.index]? = some other ↔ _
  rw [Array.getElem?_push]
  obtain ⟨owner, index⟩ := t
  by_cases last : index = ctx.types.size
  · subst last
    simp [eq_comm]
  · simp [last]

theorem find?_addType
    (inverse : ∀ shape t, ctx.typeTable.find? shape = some t ↔ ctx.shape t = .ok shape)
    {shape other : Shape} {t : TypeRef} (fresh : ctx.typeTable.find? shape = none) :
    (ctx.addType shape).typeTable.find? other = some t ↔
      (ctx.addType shape).shape t = .ok other := by
  change (ctx.typeTable.insert shape _).find? other = some t ↔ _
  rw [Table.find?_insert, shape_addType, ← inverse other t]
  by_cases same : other = shape
  · subst same
    simp [fresh, eq_comm]
  · simp [same]

theorem addType_wellFormed (wf : ctx.WellFormed) {shape : Shape}
    (inner : ∀ u ∈ shape.inner, ctx.HasType u) (fresh : ctx.typeTable.find? shape = none) :
    (ctx.addType shape).WellFormed := by
  have growth : ctx.Grows (ctx.addType shape) := addType_grows shape
  refine wf.grow growth ?_ (fun _ _ => find?_addType wf.typeTable fresh)
    (fun i r h => .inl ⟨r, h, .refl r⟩) (fun i r h => .inl ⟨r, h, rfl⟩) (fun i r h => .inl h)
    ((growth.extends rfl rfl).operandOwned wf) (fun key v h => .inl h) ?_
  · intro i other h
    change (ctx.types.push shape)[i]? = some other at h
    rw [Array.getElem?_push] at h
    split at h
    · obtain rfl : shape = other := by simpa using h
      refine .inr fun u mem => ?_
      obtain ⟨_, known⟩ := inner u mem
      obtain ⟨owner, stored⟩ := shape_eq_ok.mp known
      have inside := (Array.getElem?_eq_some_iff.mp stored).1
      exact ⟨owner, by omega⟩
    · exact .inl h
  · intro v r key live key?
    have same : (ctx.addType shape).value v = ctx.value v := value_congr rfl rfl v
    exact wf.tabled v r key (same ▸ live) key?

theorem internType_spec (wf : ctx.WellFormed) {shape : Shape} {t : TypeRef}
    (inner : ∀ u ∈ shape.inner, ctx.HasType u) (run : ctx.internType shape = (t, ctx')) :
    ctx.Extends ctx' ∧ ctx'.WellFormed ∧ ctx'.shape t = .ok shape := by
  unfold internType at run
  cases found : ctx.typeTable.find? shape with
  | some known =>
    rw [found] at run
    obtain ⟨rfl, rfl⟩ := Prod.mk.inj run
    exact ⟨.refl ctx, wf, (wf.typeTable shape known).mp found⟩
  | none =>
    rw [found] at run
    obtain ⟨rfl, rfl⟩ := Prod.mk.inj run
    exact ⟨(addType_grows shape).extends rfl rfl, addType_wellFormed wf inner found,
      shape_addType.mpr (.inr ⟨rfl, rfl⟩)⟩

/-! ### Constants -/

theorem lookup_mem {κ α : Type} [DecidableEq κ] {entries : List (κ × α)} {k : κ} {a : α}
    (h : entries.lookup k = some a) : (k, a) ∈ entries := by
  obtain ⟨before, after, rfl, _⟩ := List.lookup_eq_some_iff.mp h
  simp

def addConstant (ctx : Context) (key : ConstantKey) (record : ValueRecord) : Context :=
  { (ctx.allocValue record).2 with
    constantTable := ctx.constantTable.insert key ⟨ctx.id, ctx.values.size⟩ }

section AddConstant

variable {key : ConstantKey} {record : ValueRecord}

theorem addConstant_grows : ctx.Grows (ctx.addConstant key record) :=
  let g : ctx.Grows (ctx.allocValue record).2 := allocValue_grows record
  ⟨g.id, g.types, g.values, g.blocks, g.modules, g.emptyModules⟩

/-- A constant that is added under a key has no body, so the context is extended. -/
theorem addConstant_extends (key? : record.kind.key? = some key) :
    ctx.Extends (ctx.addConstant key record) := by
  refine addConstant_grows.extends_of_instructions rfl fun i r ir stored kind => ?_
  change (ctx.allocValue record).2.values[i]? = _ at stored
  rw [values_allocValue] at stored
  split at stored
  · obtain rfl := Option.some.inj stored
    rw [kind] at key?
    cases key?
  · exact ⟨r, ir, stored, kind⟩

theorem value_addConstant (key? : record.kind.key? = some key) {u : ValueRef} {r : ValueRecord} :
    (ctx.addConstant key record).value u = .ok r ↔
      ctx.value u = .ok r ∨ (u = ⟨ctx.id, ctx.values.size⟩ ∧ r = record) := by
  have live : record.kind ≠ .erased := by
    intro erased
    rw [erased] at key?
    cases key?
  have same : (ctx.addConstant key record).value u = (ctx.allocValue record).2.value u :=
    value_congr rfl rfl u
  rw [same]
  exact value_allocValue live

theorem entries_addConstant (fresh : ctx.constantTable.find? key = none) {k : ConstantKey}
    {u : ValueRef} : (k, u) ∈ (ctx.addConstant key record).constantTable.entries ↔
      (k, u) ∈ ctx.constantTable.entries ∨ (k = key ∧ u = ⟨ctx.id, ctx.values.size⟩) := by
  change (k, u) ∈ (ctx.constantTable.entries.filter fun entry => entry.1 ≠ key) ++ [(key, _)] ↔ _
  rw [List.mem_append, List.mem_filter, List.mem_singleton, Prod.mk.injEq]
  constructor
  · exact Or.imp_left And.left
  · refine Or.imp_left fun mem => ⟨mem, ?_⟩
    have apart : key ≠ k := by simpa using List.lookup_eq_none_iff.mp fresh _ mem
    simpa using apart.symm

theorem addConstant_wellFormed (wf : ctx.WellFormed) (key? : record.kind.key? = some key)
    (sound : ctx.ValueSound ctx.values.size record)
    (fresh : ctx.constantTable.find? key = none) : (ctx.addConstant key record).WellFormed := by
  have extension : ctx.Extends (ctx.addConstant key record) := addConstant_extends key?
  have growth := extension.toGrows
  refine wf.grow growth (fun i shape h => .inl h) ?_ ?_ (fun i r h => .inl ⟨r, h, rfl⟩)
    (fun i r h => .inl h) (extension.operandOwned wf) ?_ ?_
  · intro shape t
    have same : (ctx.addConstant key record).shape t = ctx.shape t := shape_congr rfl rfl t
    rw [same]
    exact wf.typeTable shape t
  · intro i r h
    change (ctx.allocValue record).2.values[i]? = some r at h
    rw [values_allocValue] at h
    split at h
    · rename_i last
      obtain rfl : record = r := by simpa using h
      subst last
      exact .inr (growth.valueSound sound)
    · exact .inl ⟨r, h, .refl r⟩
  · intro k u mem
    rcases (entries_addConstant fresh).mp mem with old | ⟨rfl, rfl⟩
    · exact .inl old
    · exact .inr ⟨record, (value_addConstant key?).mpr (.inr ⟨rfl, rfl⟩), key?⟩
  · intro u r k read has
    rcases (value_addConstant key?).mp read with old | ⟨rfl, rfl⟩
    · exact (entries_addConstant fresh).mpr (.inl (wf.tabled u r k old has))
    · rw [key?, Option.some.injEq] at has
      exact (entries_addConstant fresh).mpr (.inr ⟨has.symm, rfl⟩)

end AddConstant

theorem internConstant_spec (wf : ctx.WellFormed) {key : ConstantKey} {record : ValueRecord}
    {v : ValueRef} (key? : record.kind.key? = some key)
    (sound : ctx.ValueSound ctx.values.size record)
    (run : ctx.internConstant key record = (v, ctx')) :
    ctx.Extends ctx' ∧ ctx'.WellFormed ∧
      ∃ r, ctx'.value v = .ok r ∧ r.kind.key? = some key := by
  unfold internConstant at run
  cases found : ctx.constantTable.find? key with
  | some known =>
    rw [found] at run
    obtain ⟨rfl, rfl⟩ := Prod.mk.inj run
    exact ⟨.refl ctx, wf, wf.constants key known (lookup_mem found)⟩
  | none =>
    rw [found] at run
    obtain ⟨rfl, rfl⟩ := Prod.mk.inj run
    exact ⟨addConstant_extends key?, addConstant_wellFormed wf key? sound found, record,
      (value_addConstant key?).mpr (.inr ⟨rfl, rfl⟩), key?⟩

end Context
end ModuleIR
