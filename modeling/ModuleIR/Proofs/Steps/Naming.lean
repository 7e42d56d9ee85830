import ModuleIR.Build.Blocks
import ModuleIR.Build.Instructions
import ModuleIR.Proofs.Arena.Changes
import ModuleIR.Proofs.Steps.Results

set_option autoImplicit false

/-!
# Rewriting records, and naming

A record that is rewritten in place keeps a context well-formed when the new record would have been
sound before. That covers names, linkages, calling conventions and the tables of names; a table binds
a name only to what it is asked to bind it to.
-/
namespace ModuleIR

def BlockRecord.nameScope (r : BlockRecord) : NameScope :=
  match r.parent with
  | some f => .function f
  | none => .detached

namespace NameTable

theorem release_handles {t : NameTable} {name : String} {h : Handle}
    (mem : h ∈ (t.release name).handles) : h ∈ t.handles := by
  obtain ⟨entry, kept, rfl⟩ := List.mem_map.mp mem
  exact List.mem_map_of_mem ((List.mem_filter.mp kept).1)

theorem bind_handles {t : NameTable} {name : String} {symbol : Symbol} {h : Handle}
    (mem : h ∈ (t.bind name symbol).handles) : h ∈ t.handles ∨ h = symbol.handle := by
  obtain ⟨entry, kept, rfl⟩ := List.mem_map.mp mem
  rcases List.mem_append.mp kept with old | fresh
  · exact .inl (List.mem_map_of_mem ((List.mem_filter.mp old).1))
  · rw [List.mem_singleton.mp fresh]
    exact .inr rfl

theorem insertUnique_handles {t : NameTable} {base : String} {symbol : Symbol} {h : Handle}
    (mem : h ∈ (t.insertUnique base symbol).2.handles) : h ∈ t.handles ∨ h = symbol.handle := by
  unfold insertUnique at mem
  split at mem
  · exact bind_handles mem
  · exact bind_handles mem

theorem rebind_handles {t : NameTable} {old : Option String} {name : String} {symbol : Symbol}
    {h : Handle} (mem : h ∈ (t.rebind old name symbol).2.handles) :
    h ∈ t.handles ∨ h = symbol.handle := by
  unfold rebind at mem
  cases old with
  | none =>
    dsimp only at mem
    split at mem
    · exact .inl mem
    · exact insertUnique_handles mem
  | some previous =>
    dsimp only at mem
    split at mem
    · exact .inl (release_handles mem)
    · exact (insertUnique_handles mem).imp_left release_handles

end NameTable

namespace Context

variable {ctx : Context}

theorem modifyValue_spec (wf : ctx.WellFormed) {v : ValueRef} {f : ValueRecord → ValueRecord}
    (kept : ∀ r, ctx.values[v.index]? = some r → (f r).type = r.type ∧ r.kind.Becomes (f r).kind)
    (sound : ∀ r, ctx.values[v.index]? = some r →
      Alike r (f r) ∨ (ctx.ValueSound v.index (f r) ∧ (f r).kind.key? = none)) :
    ctx.Extends (ctx.modifyValue v f) ∧ (ctx.modifyValue v f).WellFormed := by
  have growth := modifyValue_grows kept
  have extension : ctx.Extends (ctx.modifyValue v f) := by
    refine growth.extends_of_instructions rfl fun i r' ir' stored kind' => ?_
    rw [values_modifyValue] at stored
    split at stored
    · rename_i same
      obtain ⟨r, old, rfl⟩ := Option.map_eq_some_iff.mp stored
      have becomes := (kept r (same ▸ old)).2
      obtain ⟨ir, kind, _⟩ := (kind' ▸ becomes).to_instruction
      exact ⟨r, ir, old, kind⟩
    · exact ⟨r', ir', stored, kind'⟩
  refine ⟨extension, wf.revise growth rfl rfl rfl ?_ (fun i r h => .inl ⟨r, h, rfl⟩)
    (fun i r h => .inl h) (extension.operandOwned wf)⟩
  intro i r' stored
  rw [values_modifyValue] at stored
  split at stored
  · rename_i same
    subst same
    obtain ⟨r, old, rfl⟩ := Option.map_eq_some_iff.mp stored
    rcases sound r old with alike | ⟨fresh, none⟩
    · exact .inl ⟨r, old, alike⟩
    · exact .inr ⟨growth.valueSound fresh, none⟩
  · exact .inl ⟨r', stored, .refl r'⟩

theorem setValueName_spec (wf : ctx.WellFormed) (v : ValueRef) (name : Option String) :
    ctx.Extends (ctx.setValueName v name) ∧ (ctx.setValueName v name).WellFormed :=
  modifyValue_spec wf (fun _ _ => ⟨rfl, .same _⟩) (fun _ _ => .inl ⟨rfl, rfl⟩)

theorem modifyFunction_spec (wf : ctx.WellFormed) {f : FunctionRef} {r : FunctionRecord}
    {change : FunctionRecord → FunctionRecord} (read : ctx.function f = .ok r)
    (body : (change r).module = r.module ∧ (change r).signature = r.signature ∧
      (change r).args = r.args ∧ (change r).blocks = r.blocks)
    (names : ∀ h ∈ (change r).names.handles, ctx.Holds h) :
    ctx.Extends (ctx.modifyFunction f change) ∧ (ctx.modifyFunction f change).WellFormed := by
  obtain ⟨value, read', kind⟩ := function_eq_ok.mp read
  obtain ⟨owner, stored, live⟩ := value_eq_ok.mp read'
  obtain ⟨module, signature, args, blocks⟩ := body
  have sound := wf.functionSound read
  refine modifyValue_spec wf ?_ ?_
  · intro old same
    obtain rfl : value = old := by simpa [stored] using same
    simp only [kind]
    exact ⟨trivial, .function module signature args (blocks ▸ .refl _)⟩
  · intro old same
    obtain rfl : value = old := by simpa [stored] using same
    simp only [kind]
    refine .inr ⟨⟨(wf.valueSound read').type, ?_⟩, rfl⟩
    exact ⟨signature ▸ sound.signature, module ▸ sound.listed, args ▸ sound.args,
      blocks ▸ sound.blocks, blocks ▸ sound.blocksNodup, names⟩

theorem modifyModuleNames_spec (wf : ctx.WellFormed) {m : ModuleRef} {r : ModuleRecord}
    {names : NameTable} (read : ctx.module m = .ok r) (owned : ∀ h ∈ names.handles, ctx.Holds h) :
    ctx.Extends (ctx.modifyModule m ({ · with names })) ∧
      (ctx.modifyModule m ({ · with names })).WellFormed := by
  obtain ⟨owner, stored⟩ := module_eq_ok.mp read
  have sound := wf.moduleSound read
  have growth : ctx.Grows (ctx.modifyModule m ({ · with names })) :=
    modifyModule_grows fun r _ => ⟨rfl, .refl _, List.prefix_rfl⟩
  have extension := growth.extends rfl rfl
  refine ⟨extension, wf.revise growth rfl rfl rfl (fun i r h => .inl ⟨r, h, .refl r⟩)
    (fun i r h => .inl ⟨r, h, rfl⟩) ?_ (extension.operandOwned wf)⟩
  intro i r' changed
  rw [modules_modifyModule] at changed
  split at changed
  · rename_i same
    rw [← same, stored] at changed
    obtain rfl : { r with names } = r' := by simpa using changed
    have fresh : ctx.ModuleSound i { r with names } :=
      same ▸ ⟨sound.globals, sound.globalsNodup, sound.functions, sound.functionsNodup, owned⟩
    exact .inr (growth.moduleSound fresh)
  · exact .inl changed

theorem setBlockName_spec (wf : ctx.WellFormed) (b : BlockRef) (name : Option String)
    (live : ∃ r, ctx.block b = .ok r) :
    ctx.Extends (ctx.setBlockName b name) ∧ (ctx.setBlockName b name).WellFormed := by
  obtain ⟨r, read⟩ := live
  obtain ⟨owner, stored, alive⟩ := block_eq_ok.mp read
  have growth : ctx.Grows (ctx.setBlockName b name) := by
    refine modifyBlock_grows fun r' same => ?_
    obtain rfl : r = r' := by simpa [stored] using same
    exact ⟨rfl, List.prefix_rfl, fun _ h => h, fun erased => by simp [alive] at erased⟩
  have extension : ctx.Extends (ctx.setBlockName b name) :=
    { toGrows := growth
      instructions := by
        intro i r' h
        have same : (ctx.setBlockName b name).instruction i = ctx.instruction i :=
          instruction_congr rfl rfl i
        exact ⟨r', same ▸ h⟩
      parents := by
        intro b' r r' h h'
        obtain ⟨_, old, _⟩ := block_eq_ok.mp h
        obtain ⟨_, new, _⟩ := block_eq_ok.mp h'
        change (ctx.modifyBlock b _).blocks[b'.index]? = _ at new
        rw [blocks_modifyBlock, old] at new
        split at new
        · obtain rfl := Option.some.inj new
          rfl
        · obtain rfl := Option.some.inj new
          rfl }
  refine ⟨extension, wf.revise growth rfl rfl rfl (fun i r h => .inl ⟨r, h, .refl r⟩) ?_
    (fun i r h => .inl h) (extension.operandOwned wf)⟩
  intro i r' changed
  change (ctx.modifyBlock b _).blocks[i]? = _ at changed
  rw [blocks_modifyBlock] at changed
  split at changed
  · obtain ⟨old, stored, rfl⟩ := Option.map_eq_some_iff.mp changed
    exact .inl ⟨old, stored, rfl⟩
  · exact .inl ⟨r', changed, rfl⟩

end Context

namespace Build

variable {ctx ctx' : Context}

open Context

theorem rebindInModule_spec (wf : ctx.WellFormed) {m : ModuleRef} {old bound : Option String}
    {name : String} (symbol : Symbol) (owned : ctx.Holds symbol.handle)
    (run : (rebindInModule m old name symbol ctx).result = .ok (bound, ctx')) :
    ctx.Extends ctx' ∧ ctx'.WellFormed := by
  simp only [rebindInModule, bind_eq_ok, read_eq_ok, change_eq_ok, pure_eq_ok] at run
  obtain ⟨r, _, ⟨read, rfl⟩, _, _, rfl, _, rfl⟩ := run
  refine modifyModuleNames_spec wf read fun h mem => ?_
  rcases NameTable.rebind_handles mem with kept | rfl
  · exact (wf.moduleSound read).names h kept
  · exact owned

theorem rebindInFunction_spec (wf : ctx.WellFormed) {f : FunctionRef} {old bound : Option String}
    {name : String} (symbol : Symbol) (owned : ctx.Holds symbol.handle)
    (run : (rebindInFunction f old name symbol ctx).result = .ok (bound, ctx')) :
    ctx.Extends ctx' ∧ ctx'.WellFormed := by
  simp only [rebindInFunction, bind_eq_ok, read_eq_ok, change_eq_ok, pure_eq_ok] at run
  obtain ⟨r, _, ⟨read, rfl⟩, _, _, rfl, _, rfl⟩ := run
  refine modifyFunction_spec wf read ⟨rfl, rfl, rfl, rfl⟩ fun h mem => ?_
  rcases NameTable.rebind_handles mem with kept | rfl
  · exact (wf.functionSound read).names h kept
  · exact owned

/-- Enters a name in a scope; where there is no table, any name goes. -/
def bindIn (scope : NameScope) (old : Option String) (name : String) (symbol : Symbol) :
    Build (Option String) :=
  match scope with
  | .module m => rebindInModule m old name symbol
  | .function f => rebindInFunction f old name symbol
  | .detached => pure (looseName name)

theorem bindIn_spec (wf : ctx.WellFormed) {scope : NameScope} {old bound : Option String}
    {name : String} (symbol : Symbol) (owned : ctx.Holds symbol.handle)
    (run : (bindIn scope old name symbol ctx).result = .ok (bound, ctx')) :
    ctx.Extends ctx' ∧ ctx'.WellFormed := by
  cases scope with
  | module m => exact rebindInModule_spec wf symbol owned run
  | function f => exact rebindInFunction_spec wf symbol owned run
  | detached =>
    obtain ⟨_, rfl⟩ := pure_eq_ok.mp run
    exact ⟨.refl ctx, wf⟩

theorem setValueName_eq (v : ValueRef) (name : String) : setValueName v name = (do
    let scope ← read (·.nameScope v)
    let record ← read (·.value v)
    if !name.isEmpty then
      let shape ← read (·.shape record.type)
      require (!shape.isVoid) (.voidName name)
    let bound ← bindIn scope record.name name (.value v)
    change (·.setValueName v bound)) := by
  unfold setValueName
  refine congrArg _ (funext fun scope => congrArg _ (funext fun record => ?_))
  cases scope <;> rfl

/-- A value is renamed by entering the name, and putting what was entered in its record. -/
theorem setValueName_parts {v : ValueRef} {name : String} {u : Unit}
    (run : (setValueName v name ctx).result = .ok (u, ctx')) :
    ∃ scope record bound mid, ctx.nameScope v = .ok scope ∧ ctx.value v = .ok record ∧
      (bindIn scope record.name name (.value v) ctx).result = .ok (bound, mid) ∧
      mid.setValueName v bound = ctx' := by
  simp only [setValueName_eq, bind_eq_ok, read_eq_ok] at run
  obtain ⟨scope, _, ⟨home, rfl⟩, record, _, ⟨read, rfl⟩, run⟩ := run
  split at run
  · simp only [bind_eq_ok, read_eq_ok, require_eq_ok, change_eq_ok] at run
    obtain ⟨_, _, ⟨_, rfl⟩, _, _, ⟨_, rfl⟩, bound, mid, entered, last⟩ := run
    exact ⟨scope, record, bound, mid, home, read, entered, last⟩
  · simp only [bind_eq_ok, change_eq_ok] at run
    obtain ⟨bound, mid, entered, last⟩ := run
    exact ⟨scope, record, bound, mid, home, read, entered, last⟩

theorem setValueName_spec (wf : ctx.WellFormed) {v : ValueRef} {name : String} {u : Unit}
    (run : (setValueName v name ctx).result = .ok (u, ctx')) :
    ctx.Extends ctx' ∧ ctx'.WellFormed := by
  obtain ⟨scope, record, bound, mid, _, read, entered, rfl⟩ := setValueName_parts run
  obtain ⟨extends₁, wf₁⟩ := bindIn_spec wf (.value v) (holds_value read rfl) entered
  obtain ⟨extends₂, wf₂⟩ := Context.setValueName_spec wf₁ v bound
  exact ⟨extends₁.trans extends₂, wf₂⟩

theorem setBlockName_parts {b : BlockRef} {name : String} {u : Unit}
    (run : (setBlockName b name ctx).result = .ok (u, ctx')) :
    ∃ record bound mid, ctx.block b = .ok record ∧
      (bindIn record.nameScope record.name name (.block b) ctx).result = .ok (bound, mid) ∧
      mid.setBlockName b bound = ctx' := by
  simp only [setBlockName, bind_eq_ok, read_eq_ok] at run
  obtain ⟨record, _, ⟨read, rfl⟩, run⟩ := run
  cases parent : record.parent with
  | some f =>
    simp only [parent, bind_eq_ok, change_eq_ok] at run
    obtain ⟨bound, mid, entered, last⟩ := run
    exact ⟨record, bound, mid, read, by simpa only [BlockRecord.nameScope, parent], last⟩
  | none =>
    simp only [parent, bind_eq_ok, change_eq_ok] at run
    obtain ⟨bound, mid, entered, last⟩ := run
    exact ⟨record, bound, mid, read, by simpa only [BlockRecord.nameScope, parent], last⟩

theorem renameBlock_spec (wf : ctx.WellFormed) {b : BlockRef} {record : BlockRecord}
    {scope : NameScope} {old bound : Option String} {name : String}
    (read : ctx.block b = .ok record)
    (run : (bindIn scope old name (.block b) ctx).result = .ok (bound, ctx')) :
    ctx.Extends (ctx'.setBlockName b bound) ∧ (ctx'.setBlockName b bound).WellFormed := by
  obtain ⟨extends₁, wf₁⟩ := bindIn_spec wf (.block b) (holds_block read) run
  obtain ⟨record', read', _⟩ := extends₁.block read
  obtain ⟨extends₂, wf₂⟩ := Context.setBlockName_spec wf₁ b bound ⟨record', read'⟩
  exact ⟨extends₁.trans extends₂, wf₂⟩

theorem setBlockName_spec (wf : ctx.WellFormed) {b : BlockRef} {name : String} {u : Unit}
    (run : (setBlockName b name ctx).result = .ok (u, ctx')) :
    ctx.Extends ctx' ∧ ctx'.WellFormed := by
  obtain ⟨record, bound, mid, read, entered, rfl⟩ := setBlockName_parts run
  exact renameBlock_spec wf read entered

/-- The names of a block's instructions are entered one by one. -/
theorem adoptNames_spec (wf : ctx.WellFormed) {f : FunctionRef} {is : List InstructionRef}
    {u : Unit} (run : (adoptNames f is ctx).result = .ok (u, ctx')) :
    ctx.Extends ctx' ∧ ctx'.WellFormed := by
  induction is generalizing ctx with
  | nil =>
    simp only [adoptNames, pure_eq_ok] at run
    obtain ⟨_, rfl⟩ := run
    exact ⟨.refl ctx, wf⟩
  | cons i rest ih =>
    simp only [adoptNames, bind_eq_ok, read_eq_ok] at run
    obtain ⟨name, _, ⟨named, rfl⟩, run⟩ := run
    obtain ⟨record, read, _⟩ := valueName_eq_ok.mp named
    cases name with
    | none =>
      exact ih wf run
    | some name =>
      simp only [bind_eq_ok, change_eq_ok] at run
      obtain ⟨bound, mid, table, _, _, rfl, run⟩ := run
      obtain ⟨extends₁, wf₁⟩ :=
        rebindInFunction_spec wf (.value i.value) (holds_value read rfl) table
      obtain ⟨extends₂, wf₂⟩ := Context.setValueName_spec wf₁ i.value bound
      obtain ⟨extends₃, wf₃⟩ := ih wf₂ run
      exact ⟨(extends₁.trans extends₂).trans extends₃, wf₃⟩

theorem adoptBlockName_spec (wf : ctx.WellFormed) {f : FunctionRef} {b : BlockRef} {u : Unit}
    (run : (adoptBlockName f b ctx).result = .ok (u, ctx')) :
    ctx.Extends ctx' ∧ ctx'.WellFormed := by
  simp only [adoptBlockName, bind_eq_ok, read_eq_ok] at run
  obtain ⟨record, _, ⟨read, rfl⟩, run⟩ := run
  cases name : record.name with
  | none =>
    simp only [name, pure_eq_ok] at run
    obtain ⟨_, rfl⟩ := run
    exact ⟨.refl ctx, wf⟩
  | some name' =>
    simp only [name, bind_eq_ok, change_eq_ok] at run
    obtain ⟨bound, mid, table, rfl⟩ := run
    have entered : (bindIn (.function f) none name' (.block b) ctx).result = .ok (bound, mid) := table
    exact renameBlock_spec wf read entered

/-! ### Attributes -/

theorem modifyFunction_spec (wf : ctx.WellFormed) {f : FunctionRef} {u : Unit}
    {change : FunctionRecord → FunctionRecord}
    (body : ∀ r, (change r).module = r.module ∧ (change r).signature = r.signature ∧
      (change r).args = r.args ∧ (change r).blocks = r.blocks)
    (names : ∀ r, (change r).names = r.names)
    (run : (modifyFunction f change ctx).result = .ok (u, ctx')) :
    ctx.Extends ctx' ∧ ctx'.WellFormed := by
  simp only [modifyFunction, bind_eq_ok, read_eq_ok, change_eq_ok] at run
  obtain ⟨r, _, ⟨read, rfl⟩, rfl⟩ := run
  exact Context.modifyFunction_spec wf read (body r) (names r ▸ (wf.functionSound read).names)

theorem setFunctionLinkage_spec (wf : ctx.WellFormed) {f : FunctionRef} {linkage : Linkage}
    {u : Unit} (run : (setFunctionLinkage f linkage ctx).result = .ok (u, ctx')) :
    ctx.Extends ctx' ∧ ctx'.WellFormed := by
  refine modifyFunction_spec wf ?_ ?_ run
  · exact fun _ => ⟨rfl, rfl, rfl, rfl⟩
  · exact fun _ => rfl

theorem setFunctionConvention_spec (wf : ctx.WellFormed) {f : FunctionRef}
    {convention : CallingConv} {u : Unit}
    (run : (setFunctionConvention f convention ctx).result = .ok (u, ctx')) :
    ctx.Extends ctx' ∧ ctx'.WellFormed := by
  refine modifyFunction_spec wf ?_ ?_ run
  · exact fun _ => ⟨rfl, rfl, rfl, rfl⟩
  · exact fun _ => rfl

theorem setGlobalLinkage_spec (wf : ctx.WellFormed) {g : GlobalRef} {linkage : Linkage} {u : Unit}
    (run : (setGlobalLinkage g linkage ctx).result = .ok (u, ctx')) :
    ctx.Extends ctx' ∧ ctx'.WellFormed := by
  simp only [setGlobalLinkage, modifyGlobal, bind_eq_ok, read_eq_ok, change_eq_ok] at run
  obtain ⟨r, _, ⟨read, rfl⟩, rfl⟩ := run
  obtain ⟨value, read', kind⟩ := global_eq_ok.mp read
  obtain ⟨_, stored, _⟩ := value_eq_ok.mp read'
  refine modifyValue_spec wf ?_ ?_
  · intro old same
    obtain rfl : value = old := by simpa [stored] using same
    exact ⟨rfl, kind ▸ .global rfl rfl⟩
  · intro old same
    obtain rfl : value = old := by simpa [stored] using same
    exact .inl ⟨rfl, by rw [kind]; rfl⟩

theorem setCallConvention_spec (wf : ctx.WellFormed) {c : CallRef} {convention : CallingConv}
    {u : Unit} (run : (setCallConvention c convention ctx).result = .ok (u, ctx')) :
    ctx.Extends ctx' ∧ ctx'.WellFormed := by
  simp only [setCallConvention, bind_eq_ok, read_eq_ok] at run
  obtain ⟨⟨parent, operation⟩, _, ⟨read, rfl⟩, run⟩ := run
  obtain ⟨value, read', kind⟩ := instruction_eq_ok.mp read
  obtain ⟨_, stored, _⟩ := value_eq_ok.mp read'
  cases operation with
  | call callee args old =>
    simp only [change_eq_ok] at run
    obtain rfl := run
    refine modifyValue_spec wf ?_ ?_
    · intro record same
      obtain rfl : value = record := by rw [← Option.some.injEq, ← stored]; exact same
      exact ⟨rfl, kind ▸ .instruction rfl rfl⟩
    · intro record same
      obtain rfl : value = record := by rw [← Option.some.injEq, ← stored]; exact same
      exact .inl ⟨rfl, by rw [kind]; rfl⟩
  | _ =>
    simp only [pure_eq_ok] at run
    obtain ⟨_, rfl⟩ := run
    exact ⟨.refl ctx, wf⟩

end Build
end ModuleIR
