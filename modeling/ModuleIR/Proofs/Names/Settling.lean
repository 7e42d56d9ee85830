import ModuleIR.Proofs.Steps.Building

set_option autoImplicit false

/-!
# Settling a block in a function

What the insertion of a block does once it is checked: the block is placed, and its name and those
of its instructions are entered in turn. Types that are made, and an instruction that is added, have
no part in this, but that the name of the instruction is entered last. So they can be made before
the block is settled or after.
-/
namespace ModuleIR

section Modify

variable {α : Type} {xs : Array α} {i j : Nat} {a : α} {g h : α → α}

theorem modify_push (inside : i < xs.size) : (xs.push a).modify i g = (xs.modify i g).push a := by
  refine Array.ext_getElem? fun k => ?_
  simp only [Array.getElem?_modify, Array.getElem?_push, Array.size_modify]
  by_cases last : k = xs.size
  · rw [if_neg (by omega), if_pos last, if_pos last]
  · rw [if_neg last, if_neg last]

theorem modify_push_last : (xs.push a).modify xs.size g = xs.push (g a) := by
  refine Array.ext_getElem? fun k => ?_
  simp only [Array.getElem?_modify, Array.getElem?_push]
  by_cases last : k = xs.size
  · simp [last]
  · rw [if_neg (Ne.symm last), if_neg last, if_neg last]

theorem modify_modify : (xs.modify i g).modify i h = xs.modify i (h ∘ g) := by
  refine Array.ext_getElem? fun k => ?_
  simp only [Array.getElem?_modify]
  split <;> simp

theorem modify_comm (apart : i = j → ∀ x, g (h x) = h (g x)) :
    (xs.modify j h).modify i g = (xs.modify i g).modify j h := by
  refine Array.ext_getElem? fun k => ?_
  simp only [Array.getElem?_modify]
  by_cases here : i = k <;> by_cases there : j = k
  · simp only [here, there, if_true, Option.map_map]
    exact congrArg (Option.map · _) (funext fun x => apart (here.trans there.symm) x)
  · simp [here, there]
  · simp [here, there]
  · simp [here, there]

end Modify

namespace Context

structure KeepsArenas (ctx ctx' : Context) : Prop where
  id : ctx'.id = ctx.id
  types : ctx'.types = ctx.types
  typeTable : ctx'.typeTable = ctx.typeTable
  size : ctx'.values.size = ctx.values.size

instance : Std.Refl KeepsArenas := ⟨fun _ => ⟨rfl, rfl, rfl, rfl⟩⟩

instance : IsTrans Context KeepsArenas where
  trans _ _ _ h h' :=
    ⟨h'.id.trans h.id, h'.types.trans h.types, h'.typeTable.trans h.typeTable, h'.size.trans h.size⟩

/-- With other types, and an instruction more at the end of a block. -/
def extend (ctx : Context) (types : Array Shape) (typeTable : Table Shape TypeRef) (b : BlockRef)
    (record : ValueRecord) : Context :=
  { ctx with
    types
    typeTable
    values := ctx.values.push record
    blocks := ctx.blocks.modify b.index fun r =>
      { r with instructions := r.instructions ++ [⟨⟨ctx.id, ctx.values.size⟩⟩] } }

variable {ctx : Context} {types : Array Shape} {typeTable : Table Shape TypeRef} {b : BlockRef}
  {record : ValueRecord}

/-! ### What is read behind an extension -/

theorem value_extend {v : ValueRef} {r : ValueRecord} (read : ctx.value v = .ok r) :
    (ctx.extend types typeTable b record).value v = .ok r := by
  obtain ⟨owner, stored, live⟩ := value_eq_ok.mp read
  exact value_eq_ok.mpr ⟨owner, getElem?_push_of_some stored, live⟩

theorem value_extend_last (live : record.kind ≠ .erased) :
    (ctx.extend types typeTable b record).value ⟨ctx.id, ctx.values.size⟩ = .ok record :=
  value_eq_ok.mpr ⟨rfl, Array.getElem?_push_size, live⟩

theorem function_extend {f : FunctionRef} {fr : FunctionRecord} (known : ctx.function f = .ok fr) :
    (ctx.extend types typeTable b record).function f = .ok fr := by
  obtain ⟨r, read, kind⟩ := function_eq_ok.mp known
  exact function_eq_ok.mpr ⟨r, value_extend read, kind⟩

theorem valueName_extend {v : ValueRef} {name : Option String}
    (named : ctx.valueName v = .ok name) :
    (ctx.extend types typeTable b record).valueName v = .ok name := by
  obtain ⟨r, read, same⟩ := valueName_eq_ok.mp named
  exact valueName_eq_ok.mpr ⟨r, value_extend read, same⟩

theorem block_extend {br : BlockRecord} (read : ctx.block b = .ok br) :
    (ctx.extend types typeTable b record).block b = .ok
      { br with instructions := br.instructions ++ [⟨⟨ctx.id, ctx.values.size⟩⟩] } := by
  obtain ⟨owner, stored, live⟩ := block_eq_ok.mp read
  refine block_eq_ok.mpr ⟨owner, ?_, live⟩
  change (ctx.blocks.modify b.index _)[b.index]? = _
  rw [Array.getElem?_modify, if_pos rfl, stored]
  rfl

theorem index_lt_of_value {v : ValueRef} {r : ValueRecord} (read : ctx.value v = .ok r) :
    v.index < ctx.values.size :=
  (Array.getElem?_eq_some_iff.mp (value_eq_ok.mp read).2.1).1

theorem index_lt_of_function {f : FunctionRef} {fr : FunctionRecord}
    (known : ctx.function f = .ok fr) : f.value.index < ctx.values.size := by
  obtain ⟨r, read, _⟩ := function_eq_ok.mp known
  exact index_lt_of_value read

/-! ### Changes of a function, and names of values -/

theorem function_setValueName {v : ValueRef} {name : Option String} {f : FunctionRef}
    {fr : FunctionRecord} (known : ctx.function f = .ok fr) :
    (ctx.setValueName v name).function f = .ok fr := by
  obtain ⟨r, read, kind⟩ := function_eq_ok.mp known
  obtain ⟨owner, stored, live⟩ := value_eq_ok.mp read
  by_cases same : v.index = f.value.index
  · refine function_eq_ok.mpr ⟨{ r with name }, value_eq_ok.mpr ⟨owner, ?_, live⟩, kind⟩
    rw [setValueName, values_modifyValue, if_pos same, stored]
    rfl
  · refine function_eq_ok.mpr ⟨r, value_eq_ok.mpr ⟨owner, ?_, live⟩, kind⟩
    rw [setValueName, values_modifyValue, if_neg same, stored]

theorem modifyFunction_setValueName {v : ValueRef} {name : Option String} {f : FunctionRef}
    {change : FunctionRecord → FunctionRecord} :
    (ctx.setValueName v name).modifyFunction f change =
      (ctx.modifyFunction f change).setValueName v name := by
  simp only [setValueName, modifyFunction, modifyValue]
  rw [modify_comm fun _ ⟨_, _, kind⟩ => by cases kind <;> rfl]

theorem setValueName_setValueName {v : ValueRef} {name name' : Option String} :
    (ctx.setValueName v name).setValueName v name' = ctx.setValueName v name' := by
  simp only [setValueName, modifyValue, modify_modify]
  rfl

/-! ### Changes ahead of an extension -/

theorem modifyValue_extend {v : ValueRef} {g : ValueRecord → ValueRecord}
    (inside : v.index < ctx.values.size) :
    (ctx.extend types typeTable b record).modifyValue v g =
      (ctx.modifyValue v g).extend types typeTable b record := by
  simp only [extend, modifyValue, modify_push inside, Array.size_modify]

theorem modifyBlock_extend {c : BlockRef} {g : BlockRecord → BlockRecord}
    (apart : ∀ r is, g { r with instructions := r.instructions ++ is } =
      { g r with instructions := (g r).instructions ++ is }) :
    (ctx.extend types typeTable b record).modifyBlock c g =
      (ctx.modifyBlock c g).extend types typeTable b record := by
  simp only [extend, modifyBlock]
  rw [modify_comm fun _ r => apart r _]

theorem placeBlock_extend {f : FunctionRef} {position : Nat}
    (inside : f.value.index < ctx.values.size) :
    (ctx.extend types typeTable b record).placeBlock b f position =
      (ctx.placeBlock b f position).extend types typeTable b record := by
  unfold placeBlock modifyFunction
  rw [modifyValue_extend inside]
  exact modifyBlock_extend fun _ _ => rfl

end Context

namespace Build

open Context

variable {ctx mid ctx' : Context} {types : Array Shape} {typeTable : Table Shape TypeRef}
  {b : BlockRef} {f : FunctionRef} {record : ValueRecord}

/-! ### Names are entered without touching the arenas -/

theorem rebindInFunction_keepsArenas (old : Option String) (name : String) (symbol : Symbol) :
    Obeys KeepsArenas (rebindInFunction f old name symbol) :=
  .bind (.read _) fun _ =>
    .bind (.change fun _ => ⟨rfl, rfl, rfl, Array.size_modify⟩) fun _ => .pure _

theorem adoptBlockName_keepsArenas : Obeys KeepsArenas (adoptBlockName f b) := by
  refine .bind (.read _) fun br => ?_
  cases br.name with
  | none => exact .pure _
  | some name =>
    exact .bind (rebindInFunction_keepsArenas _ _ _) fun _ => .change fun _ => ⟨rfl, rfl, rfl, rfl⟩

theorem adoptNames_keepsArenas (is : List InstructionRef) :
    Obeys KeepsArenas (adoptNames f is) := by
  induction is with
  | nil => exact .pure _
  | cons i rest ih =>
    refine .bind (.read _) fun name => ?_
    cases name with
    | none => exact ih
    | some name =>
      exact .bind (rebindInFunction_keepsArenas _ _ _) fun _ =>
        .bind (.change fun _ => ⟨rfl, rfl, rfl, Array.size_modify⟩) fun _ => ih

/-! ### Names are entered whatever a value is called -/

theorem rebindInFunction_renamed {old bound : Option String} {name : String} {symbol : Symbol}
    {v : ValueRef} {called : Option String}
    (run : (rebindInFunction f old name symbol ctx).result = .ok (bound, ctx')) :
    (rebindInFunction f old name symbol (ctx.setValueName v called)).result =
      .ok (bound, ctx'.setValueName v called) := by
  simp only [rebindInFunction, bind_eq_ok, read_eq_ok, change_eq_ok, pure_eq_ok] at run ⊢
  obtain ⟨fr, _, ⟨known, rfl⟩, _, _, rfl, rfl, rfl⟩ := run
  refine ⟨fr, _, ⟨function_setValueName known, rfl⟩, (), _, rfl, rfl, ?_⟩
  exact modifyFunction_setValueName

/-! ### Names are entered ahead of an extension -/

theorem rebindInFunction_extend {old bound : Option String} {name : String} {symbol : Symbol}
    (run : (rebindInFunction f old name symbol ctx).result = .ok (bound, ctx')) :
    (rebindInFunction f old name symbol (ctx.extend types typeTable b record)).result =
      .ok (bound, ctx'.extend types typeTable b record) := by
  simp only [rebindInFunction, bind_eq_ok, read_eq_ok, change_eq_ok, pure_eq_ok] at run ⊢
  obtain ⟨fr, _, ⟨known, rfl⟩, _, _, rfl, rfl, rfl⟩ := run
  exact ⟨fr, _, ⟨function_extend known, rfl⟩, (), _, rfl, rfl,
    modifyValue_extend (index_lt_of_function known)⟩

theorem adoptBlockName_extend {u : Unit} (run : (adoptBlockName f b ctx).result = .ok (u, ctx')) :
    (adoptBlockName f b (ctx.extend types typeTable b record)).result =
      .ok (u, ctx'.extend types typeTable b record) := by
  simp only [adoptBlockName, bind_eq_ok, read_eq_ok] at run ⊢
  obtain ⟨br, _, ⟨read, rfl⟩, run⟩ := run
  refine ⟨_, _, ⟨block_extend read, rfl⟩, ?_⟩
  cases named : br.name with
  | none =>
    simp only [named, pure_eq_ok] at run ⊢
    exact ⟨trivial, congrArg (·.extend types typeTable b record) run.2⟩
  | some name =>
    simp only [named, bind_eq_ok, change_eq_ok] at run ⊢
    obtain ⟨bound, mid, entered, rfl⟩ := run
    exact ⟨bound, _, rebindInFunction_extend entered, modifyBlock_extend fun _ _ => rfl⟩

theorem adoptNames_extend {is : List InstructionRef} {u : Unit}
    (run : (adoptNames f is ctx).result = .ok (u, ctx')) :
    (adoptNames f is (ctx.extend types typeTable b record)).result =
      .ok (u, ctx'.extend types typeTable b record) := by
  induction is generalizing ctx with
  | nil =>
    obtain ⟨_, rfl⟩ := pure_eq_ok.mp run
    exact pure_eq_ok.mpr ⟨rfl, rfl⟩
  | cons i rest ih =>
    simp only [adoptNames, bind_eq_ok, read_eq_ok] at run ⊢
    obtain ⟨name, _, ⟨named, rfl⟩, run⟩ := run
    refine ⟨name, _, ⟨valueName_extend named, rfl⟩, ?_⟩
    cases name with
    | none => exact ih run
    | some name =>
      simp only [bind_eq_ok, change_eq_ok] at run ⊢
      obtain ⟨bound, mid, entered, _, _, rfl, run⟩ := run
      obtain ⟨r, read, _⟩ := valueName_eq_ok.mp named
      obtain ⟨r', read', _⟩ := (rebindInFunction_builds _ _ _ _ _ _ _ entered).grows.value read
      refine ⟨bound, _, rebindInFunction_extend entered, (), _, rfl, ?_⟩
      rw [Context.setValueName, modifyValue_extend (index_lt_of_value read')]
      exact ih run

theorem adoptNames_append {is js : List InstructionRef} {u : Unit} :
    (adoptNames f (is ++ js) ctx).result = .ok (u, ctx') ↔
      ∃ mid, (adoptNames f is ctx).result = .ok ((), mid) ∧
        (adoptNames f js mid).result = .ok (u, ctx') := by
  induction is generalizing ctx with
  | nil => simp [adoptNames]
  | cons i rest ih =>
    simp only [List.cons_append, adoptNames, bind_eq_ok]
    constructor
    · rintro ⟨name, _, named, run⟩
      cases name with
      | none =>
        obtain ⟨mid, first, last⟩ := ih.mp run
        exact ⟨mid, ⟨none, _, named, first⟩, last⟩
      | some name =>
        simp only [bind_eq_ok] at run
        obtain ⟨bound, _, entered, _, _, renamed, run⟩ := run
        obtain ⟨mid, first, last⟩ := ih.mp run
        refine ⟨mid, ⟨some name, _, named, ?_⟩, last⟩
        exact bind_eq_ok.mpr ⟨bound, _, entered, bind_eq_ok.mpr ⟨(), _, renamed, first⟩⟩
    · rintro ⟨mid, ⟨name, _, named, run⟩, last⟩
      refine ⟨name, _, named, ?_⟩
      cases name with
      | none => exact ih.mpr ⟨mid, run, last⟩
      | some name =>
        simp only [bind_eq_ok] at run ⊢
        obtain ⟨bound, _, entered, _, _, renamed, run⟩ := run
        exact ⟨bound, _, entered, (), _, renamed, ih.mpr ⟨mid, run, last⟩⟩

end Build

namespace Context

open Build

/-- What a context with a detached block becomes when the block is placed at a position, its name
entered, and then the names of its instructions in order. -/
def SettlesBlock (ctx : Context) (b : BlockRef) (f : FunctionRef) (position : Nat)
    (ctx' : Context) : Prop :=
  ∃ mid br, (adoptBlockName f b (ctx.placeBlock b f position)).result = .ok ((), mid) ∧
    mid.block b = .ok br ∧ (adoptNames f br.instructions mid).result = .ok ((), ctx')

variable {ctx ctx' ctx'' : Context} {types : Array Shape} {typeTable : Table Shape TypeRef}
  {b : BlockRef} {f : FunctionRef} {position : Nat} {record : ValueRecord}

namespace SettlesBlock

theorem unique (settles : ctx.SettlesBlock b f position ctx')
    (again : ctx.SettlesBlock b f position ctx'') : ctx' = ctx'' := by
  obtain ⟨mid, br, entered, read, adopted⟩ := settles
  obtain ⟨mid', br', entered', read', adopted'⟩ := again
  obtain rfl := (Prod.mk.inj (Checked.unique entered entered')).2
  obtain rfl := Checked.unique read read'
  exact (Prod.mk.inj (Checked.unique adopted adopted')).2

/-- An instruction that is added first is an instruction added afterwards, whose name is entered. -/
theorem extend (settles : ctx.SettlesBlock b f position ctx')
    (inside : f.value.index < ctx.values.size)
    (last : (adoptNames f [⟨⟨ctx'.id, ctx'.values.size⟩⟩]
      (ctx'.extend types typeTable b record)).result = .ok ((), ctx'')) :
    (ctx.extend types typeTable b record).SettlesBlock b f position ctx'' := by
  obtain ⟨mid, br, entered, read, adopted⟩ := settles
  obtain ⟨id, _, _, size⟩ := adoptNames_keepsArenas _ _ _ _ adopted
  rw [id, size] at last
  refine ⟨mid.extend types typeTable b record, _, ?_, block_extend read,
    adoptNames_append.mpr ⟨_, adoptNames_extend adopted, last⟩⟩
  rw [placeBlock_extend inside]
  exact adoptBlockName_extend entered

theorem keepsArenas (settles : ctx.SettlesBlock b f position ctx') : ctx.KeepsArenas ctx' := by
  obtain ⟨mid, br, entered, _, adopted⟩ := settles
  have placed : ctx.KeepsArenas (ctx.placeBlock b f position) :=
    ⟨rfl, rfl, rfl, Array.size_modify⟩
  exact trans_of _ (trans_of _ placed (adoptBlockName_keepsArenas _ _ _ entered))
    (adoptNames_keepsArenas _ _ _ _ adopted)

variable {br : BlockRecord} {fr : FunctionRecord} (read : ctx.block b = .ok br)
  (loose : br.parent = none) (known : ctx.function f = .ok fr)
include read loose known

theorem builds (settles : ctx.SettlesBlock b f position ctx') :
    ctx.Places (ctx.placeBlock b f position) b f ∧ (ctx.placeBlock b f position).Grows ctx' := by
  obtain ⟨mid, _, entered, _, adopted⟩ := settles
  exact ⟨placeBlock_places read loose known, (adoptBlockName_builds f b _ _ _ entered).grows.trans
    (adoptNames_builds f _ _ _ _ adopted).grows⟩

theorem grows (settles : ctx.SettlesBlock b f position ctx') : ctx.Grows ctx' := by
  obtain ⟨places, growth⟩ := settles.builds read loose known
  exact places.toGrows.trans growth

theorem placed (settles : ctx.SettlesBlock b f position ctx') :
    ∃ br', ctx'.block b = .ok br' ∧ br'.parent = some f := by
  obtain ⟨places, growth⟩ := settles.builds read loose known
  obtain ⟨r, held, parent⟩ := places.placed
  obtain ⟨br', held', step⟩ := growth.block held
  exact ⟨br', held', step.parent f parent⟩

end SettlesBlock
end Context
end ModuleIR
