import ModuleIR.Arena.Scope
import ModuleIR.Build.Outcome

set_option autoImplicit false

/-!
# What a successful read says

A read gives an answer exactly when the handle carries the context's own number, lies in the arena
and names no tombstone. The lemmas here turn each reading function into that statement once, so that
later proofs speak about arenas and never unfold a reading function again.
-/
namespace ModuleIR

namespace Checked

variable {α β : Type}

theorem map_eq_ok {step : Checked α} {f : α → β} {b : β} :
    Except.map f step = .ok b ↔ ∃ a, step = .ok a ∧ f a = b := by
  cases step <;> simp [Except.map]

theorem unique {step : Checked α} {a b : α} (h : step = .ok a) (h' : step = .ok b) : a = b :=
  Except.ok.inj (h.symm.trans h')

theorem toOption_eq_some {step : Checked α} {a : α} : step.toOption = some a ↔ step = .ok a := by
  cases step <;> simp [Except.toOption]

theorem anyM_eq_false {test : α → Checked Bool} {xs : List α}
    (each : ∀ x ∈ xs, test x = .ok false) : xs.anyM test = .ok false := by
  induction xs with
  | nil => rfl
  | cons x rest ih =>
    rw [List.anyM_cons, each x List.mem_cons_self]
    exact ih fun y mem => each y (List.mem_cons_of_mem x mem)

theorem mapM_eq_map {read : α → Checked β} {f : α → β} {xs : List α}
    (each : ∀ x ∈ xs, read x = .ok (f x)) : xs.mapM read = .ok (xs.map f) := by
  induction xs with
  | nil => rfl
  | cons x rest ih =>
    rw [List.mapM_cons, each x List.mem_cons_self, ih fun y mem => each y (List.mem_cons_of_mem x mem)]
    rfl

theorem foldlM_cons_eq_ok {step : β → α → Checked β} {start final : β} {x : α} {xs : List α} :
    (x :: xs).foldlM step start = .ok final ↔
      ∃ mid, step start x = .ok mid ∧ xs.foldlM step mid = .ok final := by
  rw [List.foldlM_cons, bind_eq_ok]

theorem mem_of_mapM {read : α → Checked β} {xs : List α} {ys : List β} (done : xs.mapM read = .ok ys)
    {y : β} (mem : y ∈ ys) : ∃ x ∈ xs, read x = .ok y := by
  induction xs generalizing ys with
  | nil =>
    obtain rfl := Except.ok.inj done
    cases mem
  | cons x rest ih =>
    rw [List.mapM_cons, bind_eq_ok] at done
    obtain ⟨first, found, done⟩ := done
    obtain ⟨others, walked, same⟩ := bind_eq_ok.mp done
    obtain rfl := Except.ok.inj same
    rcases List.mem_cons.mp mem with rfl | mem
    · exact ⟨x, List.mem_cons_self, found⟩
    · obtain ⟨u, listed, found⟩ := ih walked mem
      exact ⟨u, List.mem_cons_of_mem x listed, found⟩

end Checked

theorem ValueKind.isErased_iff {kind : ValueKind} : kind.isErased = true ↔ kind = .erased := by
  cases kind <;> simp [ValueKind.isErased]

namespace Context

variable {ctx : Context}

theorem checkOwner_eq_ok {kind : EntityKind} {owner : ContextId} {u : Unit} :
    ctx.checkOwner kind owner = .ok u ↔ owner = ctx.id := by
  unfold checkOwner
  split <;> simp_all

theorem shape_eq_ok {t : TypeRef} {shape : Shape} :
    ctx.shape t = .ok shape ↔ t.ctx = ctx.id ∧ ctx.types[t.index]? = some shape := by
  unfold Context.shape
  simp only [Checked.bind_eq_ok, checkOwner_eq_ok]
  cases h : ctx.types[t.index]? <;> simp

theorem value_eq_ok {v : ValueRef} {record : ValueRecord} :
    ctx.value v = .ok record ↔
      v.ctx = ctx.id ∧ ctx.values[v.index]? = some record ∧ record.kind ≠ .erased := by
  unfold Context.value
  simp only [Checked.bind_eq_ok, checkOwner_eq_ok]
  cases h : ctx.values[v.index]? with
  | none => simp
  | some found =>
    by_cases e : found.kind = .erased
    · simp only [ValueKind.isErased_iff.mpr e, ite_true, Option.some.injEq]
      constructor
      · rintro ⟨_, _, impossible⟩
        cases impossible
      · rintro ⟨_, same, live⟩
        exact absurd (same ▸ e) live
    · simp only [mt ValueKind.isErased_iff.mp e, Bool.false_eq_true, ite_false, Checked.pure_eq,
        Except.ok.injEq, Option.some.injEq]
      constructor
      · rintro ⟨_, owner, rfl⟩
        exact ⟨owner, rfl, e⟩
      · rintro ⟨owner, rfl, _⟩
        exact ⟨(), owner, rfl⟩

theorem block_eq_ok {b : BlockRef} {record : BlockRecord} :
    ctx.block b = .ok record ↔
      b.ctx = ctx.id ∧ ctx.blocks[b.index]? = some record ∧ record.erased = false := by
  unfold Context.block
  simp only [Checked.bind_eq_ok, checkOwner_eq_ok]
  cases h : ctx.blocks[b.index]? with
  | none => simp
  | some found =>
    by_cases e : found.erased = true
    · simp only [e, ite_true, Option.some.injEq]
      constructor
      · rintro ⟨_, _, impossible⟩
        cases impossible
      · rintro ⟨_, rfl, live⟩
        exact absurd e (by simp [live])
    · simp only [e, Bool.false_eq_true, ite_false, Checked.pure_eq, Except.ok.injEq,
        Option.some.injEq]
      constructor
      · rintro ⟨_, owner, rfl⟩
        exact ⟨owner, rfl, by simpa using e⟩
      · rintro ⟨owner, rfl, _⟩
        exact ⟨(), owner, rfl⟩

theorem module_eq_ok {m : ModuleRef} {record : ModuleRecord} :
    ctx.module m = .ok record ↔
      m.ctx = ctx.id ∧ ctx.modules[m.index]? = some (some record) := by
  unfold Context.module
  simp only [Checked.bind_eq_ok, checkOwner_eq_ok]
  cases h : ctx.modules[m.index]? with
  | none => simp
  | some place => cases place <;> simp

theorem isErased_eq_ok {v : ValueRef} {erased : Bool} :
    ctx.isErased v = .ok erased ↔
      v.ctx = ctx.id ∧ ∃ record, ctx.values[v.index]? = some record ∧
        record.kind.isErased = erased := by
  unfold Context.isErased
  simp only [Checked.bind_eq_ok, checkOwner_eq_ok]
  cases ctx.values[v.index]? <;> simp

theorem valueType_eq_ok {v : ValueRef} {t : TypeRef} :
    ctx.valueType v = .ok t ↔ ∃ record, ctx.value v = .ok record ∧ record.type = t := by
  simp [valueType, Checked.bind_eq_ok]

theorem describeTypeOf_eq_ok {v : ValueRef} {text : String} : ctx.describeTypeOf v = .ok text ↔
    ∃ record, ctx.value v = .ok record ∧ ctx.describeType record.type = .ok text := by
  simp only [describeTypeOf, Checked.bind_eq_ok, valueType_eq_ok]
  constructor
  · rintro ⟨_, ⟨record, read, rfl⟩, written⟩
    exact ⟨record, read, written⟩
  · rintro ⟨record, read, written⟩
    exact ⟨_, ⟨record, read, rfl⟩, written⟩

theorem valueName_eq_ok {v : ValueRef} {name : Option String} :
    ctx.valueName v = .ok name ↔ ∃ record, ctx.value v = .ok record ∧ record.name = name := by
  simp [valueName, Checked.bind_eq_ok]

theorem global_eq_ok {g : GlobalRef} {record : GlobalRecord} :
    ctx.global g = .ok record ↔
      ∃ value, ctx.value g.value = .ok value ∧ value.kind = .global record := by
  unfold Context.global
  rw [Checked.bind_eq_ok]
  refine exists_congr fun value => and_congr_right fun _ => ?_
  cases value.kind <;> simp

theorem function_eq_ok {f : FunctionRef} {record : FunctionRecord} :
    ctx.function f = .ok record ↔
      ∃ value, ctx.value f.value = .ok value ∧ value.kind = .function record := by
  unfold Context.function
  rw [Checked.bind_eq_ok]
  refine exists_congr fun value => and_congr_right fun _ => ?_
  cases value.kind <;> simp

theorem argument_eq_ok {a : ArgumentRef} {record : ArgumentRecord} :
    ctx.argument a = .ok record ↔
      ∃ value, ctx.value a.value = .ok value ∧ value.kind = .argument record := by
  unfold Context.argument
  rw [Checked.bind_eq_ok]
  refine exists_congr fun value => and_congr_right fun _ => ?_
  cases value.kind <;> simp

theorem instruction_eq_ok {i : InstructionRef} {record : InstructionRecord} :
    ctx.instruction i = .ok record ↔
      ∃ value, ctx.value i.value = .ok value ∧ value.kind = .instruction record := by
  unfold Context.instruction
  rw [Checked.bind_eq_ok]
  refine exists_congr fun value => and_congr_right fun _ => ?_
  cases value.kind <;> simp

theorem operation_eq_ok {i : InstructionRef} {operation : Operation} :
    ctx.operation i = .ok operation ↔
      ∃ record, ctx.instruction i = .ok record ∧ record.operation = operation := by
  simp [Context.operation, Checked.bind_eq_ok]

theorem functionName_eq_ok {f : FunctionRef} {name : String} :
    ctx.functionName f = .ok name ↔
      ∃ record, ctx.value f.value = .ok record ∧ record.name.getD "" = name := by
  simp [functionName, valueName, Checked.bind_eq_ok]

theorem moduleName_eq_ok {m : ModuleRef} {name : String} :
    ctx.moduleName m = .ok name ↔ ∃ record, ctx.module m = .ok record ∧ record.name = name := by
  simp [moduleName, Checked.bind_eq_ok]

theorem integerBits_eq_ok {t : IntegerTypeRef} {bits : Nat} :
    ctx.integerBits t = .ok bits ↔ ctx.shape t.type = .ok (.integer bits) := by
  unfold integerBits
  cases read : ctx.shape t.type with
  | error => simp
  | ok shape => cases shape <;> simp

theorem signature_eq_ok {t : FunctionTypeRef} {result : TypeRef} {params : List TypeRef}
    {variadic : Bool} :
    ctx.signature t = .ok (result, params, variadic) ↔
      ctx.shape t.type = .ok (.function result params variadic) := by
  unfold signature
  rw [Checked.bind_eq_ok]
  constructor
  · rintro ⟨shape, read, result⟩
    cases shape <;> simp_all
  · intro read
    exact ⟨_, read, rfl⟩

end Context
end ModuleIR
