import ModuleIR.Proofs.Arena.Reads
import ModuleIR.Proofs.World.Request

set_option autoImplicit false

/-!
# Growth of a context

Every operation but the erasure of a module lets a context grow: types stay, values keep their type
and what they are, blocks and modules only gain entries in their lists, and what is erased stays
erased. `Context.Grows` is that relation. It is a preorder, so that a step of many changes grows when
each change does, and whatever can be read before can be read after.
-/
namespace ModuleIR

/-- The operation without its calling convention, the one part that can be changed. -/
def Operation.bare : Operation → Operation
  | .call callee args _ => .call callee args .c
  | .ret value => .ret value
  | .br target => .br target
  | .condBr cond ifTrue ifFalse => .condBr cond ifTrue ifFalse

namespace Operation

@[simp] theorem operands_bare (o : Operation) : o.bare.operands = o.operands := by cases o <;> rfl

@[simp] theorem handles_bare (o : Operation) : o.bare.handles = o.handles := by cases o <;> rfl

@[simp] theorem isCall_bare (o : Operation) : o.bare.isCall = o.isCall := by cases o <;> rfl

@[simp] theorem isReturn_bare (o : Operation) : o.bare.isReturn = o.isReturn := by cases o <;> rfl

@[simp] theorem isBranch_bare (o : Operation) : o.bare.isBranch = o.isBranch := by cases o <;> rfl

@[simp] theorem bare_eq_ret {o : Operation} {value : Option ValueRef} :
    o.bare = .ret value ↔ o = .ret value := by
  cases o <;> simp [bare]

theorem operands_eq_of_bare {o o' : Operation} (h : o'.bare = o.bare) :
    o'.operands = o.operands := by
  rw [← operands_bare, h, operands_bare]

theorem handles_eq_of_bare {o o' : Operation} (h : o'.bare = o.bare) : o'.handles = o.handles := by
  rw [← handles_bare, h, handles_bare]

theorem isCall_eq_of_bare {o o' : Operation} (h : o'.bare = o.bare) : o'.isCall = o.isCall := by
  rw [← isCall_bare, h, isCall_bare]

theorem isReturn_eq_of_bare {o o' : Operation} (h : o'.bare = o.bare) :
    o'.isReturn = o.isReturn := by
  rw [← isReturn_bare, h, isReturn_bare]

theorem isBranch_eq_of_bare {o o' : Operation} (h : o'.bare = o.bare) :
    o'.isBranch = o.isBranch := by
  rw [← isBranch_bare, h, isBranch_bare]

end Operation

/-- How the content of a value may change while the value lives. -/
inductive ValueKind.Becomes : ValueKind → ValueKind → Prop
  | same (kind : ValueKind) : Becomes kind kind
  | global {r r' : GlobalRecord} (module : r'.module = r.module)
      (valueType : r'.valueType = r.valueType) : Becomes (.global r) (.global r')
  | function {r r' : FunctionRecord} (module : r'.module = r.module)
      (signature : r'.signature = r.signature) (args : r'.args = r.args)
      (blocks : r.blocks.Sublist r'.blocks) : Becomes (.function r) (.function r')
  | instruction {r r' : InstructionRecord} (parent : r'.parent = r.parent)
      (operation : r'.operation.bare = r.operation.bare) :
      Becomes (.instruction r) (.instruction r')

def ValueKind.isFixed : ValueKind → Bool
  | .global _ | .function _ | .instruction _ => false
  | _ => true

namespace ValueKind.Becomes

variable {k k' k'' : ValueKind}

theorem of_function {r : FunctionRecord} (h : Becomes (.function r) k) :
    ∃ r', k = .function r' ∧ r'.module = r.module ∧ r'.signature = r.signature ∧
      r'.args = r.args ∧ r.blocks.Sublist r'.blocks := by
  cases h with
  | same => exact ⟨r, rfl, rfl, rfl, rfl, .refl _⟩
  | function module signature args blocks => exact ⟨_, rfl, module, signature, args, blocks⟩

theorem of_global {r : GlobalRecord} (h : Becomes (.global r) k) :
    ∃ r', k = .global r' ∧ r'.module = r.module ∧ r'.valueType = r.valueType := by
  cases h with
  | same => exact ⟨r, rfl, rfl, rfl⟩
  | global module valueType => exact ⟨_, rfl, module, valueType⟩

theorem of_instruction {r : InstructionRecord} (h : Becomes (.instruction r) k) :
    ∃ r', k = .instruction r' ∧ r'.parent = r.parent ∧ r'.operation.bare = r.operation.bare := by
  cases h with
  | same => exact ⟨r, rfl, rfl, rfl⟩
  | instruction parent operation => exact ⟨_, rfl, parent, operation⟩

theorem to_instruction {r' : InstructionRecord} (h : Becomes k (.instruction r')) :
    ∃ r, k = .instruction r ∧ r'.parent = r.parent ∧ r'.operation.bare = r.operation.bare := by
  cases h with
  | same => exact ⟨r', rfl, rfl, rfl⟩
  | instruction parent operation => exact ⟨_, rfl, parent, operation⟩

theorem to_global {r' : GlobalRecord} (h : Becomes k (.global r')) :
    ∃ r, k = .global r ∧ r'.module = r.module ∧ r'.valueType = r.valueType := by
  cases h with
  | same => exact ⟨r', rfl, rfl, rfl⟩
  | global module valueType => exact ⟨_, rfl, module, valueType⟩

theorem to_function {r' : FunctionRecord} (h : Becomes k (.function r')) :
    ∃ r, k = .function r ∧ r'.module = r.module ∧ r'.signature = r.signature ∧ r'.args = r.args ∧
      r.blocks.Sublist r'.blocks := by
  cases h with
  | same => exact ⟨r', rfl, rfl, rfl, rfl, .refl _⟩
  | function module signature args blocks => exact ⟨_, rfl, module, signature, args, blocks⟩

theorem trans (h : Becomes k k') (h' : Becomes k' k'') : Becomes k k'' := by
  cases h with
  | same => exact h'
  | global module valueType =>
    obtain ⟨_, rfl, module', valueType'⟩ := h'.of_global
    exact .global (module'.trans module) (valueType'.trans valueType)
  | function module signature args blocks =>
    obtain ⟨_, rfl, module', signature', args', blocks'⟩ := h'.of_function
    exact .function (module'.trans module) (signature'.trans signature) (args'.trans args)
      (blocks.trans blocks')
  | instruction parent operation =>
    obtain ⟨_, rfl, parent', operation'⟩ := h'.of_instruction
    exact .instruction (parent'.trans parent) (operation'.trans operation)

theorem eq_of_fixed (h : Becomes k k') (fixed : k.isFixed = true) : k' = k := by
  cases h with
  | same => rfl
  | global | function | instruction => cases fixed

theorem erased_iff (h : Becomes k k') : k' = .erased ↔ k = .erased := by cases h <;> simp

theorem isConstant_eq (h : Becomes k k') : k'.isConstant = k.isConstant := by cases h <;> rfl

theorem accepts_eq (h : Becomes k k') (view : ValueView) : view.accepts k' = view.accepts k := by
  cases h with
  | same => rfl
  | global => cases view <;> rfl
  | function => cases view <;> rfl
  | instruction parent operation =>
    cases view with
    | call => exact Operation.isCall_eq_of_bare operation
    | ret => exact Operation.isReturn_eq_of_bare operation
    | branch => exact Operation.isBranch_eq_of_bare operation
    | _ => rfl

end ValueKind.Becomes

/-- How the record of a block may change. -/
structure BlockRecord.Becomes (r r' : BlockRecord) : Prop where
  erased : r'.erased = r.erased
  instructions : r.instructions <+: r'.instructions
  parent : ∀ f, r.parent = some f → r'.parent = some f
  tombstone : r.erased = true → r' = r

namespace BlockRecord.Becomes

variable {r r' r'' : BlockRecord}

theorem refl (r : BlockRecord) : r.Becomes r := ⟨rfl, List.prefix_rfl, fun _ h => h, fun _ => rfl⟩

theorem trans (h : r.Becomes r') (h' : r'.Becomes r'') : r.Becomes r'' where
  erased := h'.erased.trans h.erased
  instructions := h.instructions.trans h'.instructions
  parent f hf := h'.parent f (h.parent f hf)
  tombstone e := (h'.tombstone (h.erased.trans e)).trans (h.tombstone e)

end BlockRecord.Becomes

structure ModuleRecord.Becomes (r r' : ModuleRecord) : Prop where
  name : r'.name = r.name
  globals : r.globals.Sublist r'.globals
  functions : r.functions <+: r'.functions

namespace ModuleRecord.Becomes

variable {r r' r'' : ModuleRecord}

theorem refl (r : ModuleRecord) : r.Becomes r := ⟨rfl, .refl _, List.prefix_rfl⟩

theorem trans (h : r.Becomes r') (h' : r'.Becomes r'') : r.Becomes r'' :=
  ⟨h'.name.trans h.name, h.globals.trans h'.globals, h.functions.trans h'.functions⟩

end ModuleRecord.Becomes

namespace Context

/-- A change that erases nothing. -/
structure Grows (ctx ctx' : Context) : Prop where
  id : ctx'.id = ctx.id
  types : ∀ (i : Nat) shape, ctx.types[i]? = some shape → ctx'.types[i]? = some shape
  values : ∀ (i : Nat) r, ctx.values[i]? = some r →
    ∃ r', ctx'.values[i]? = some r' ∧ r'.type = r.type ∧ r.kind.Becomes r'.kind
  blocks : ∀ (i : Nat) r, ctx.blocks[i]? = some r → ∃ r', ctx'.blocks[i]? = some r' ∧ r.Becomes r'
  modules : ∀ (i : Nat) r, ctx.modules[i]? = some (some r) →
    ∃ r', ctx'.modules[i]? = some (some r') ∧ r.Becomes r'
  emptyModules : ∀ i : Nat, ctx.modules[i]? = some none → ctx'.modules[i]? = some none

namespace Grows

variable {ctx ctx' ctx'' : Context}

theorem refl (ctx : Context) : ctx.Grows ctx where
  id := rfl
  types _ _ h := h
  values _ r h := ⟨r, h, rfl, .same _⟩
  blocks _ r h := ⟨r, h, .refl r⟩
  modules _ r h := ⟨r, h, .refl r⟩
  emptyModules _ h := h

theorem trans (g : ctx.Grows ctx') (g' : ctx'.Grows ctx'') : ctx.Grows ctx'' where
  id := g'.id.trans g.id
  types i shape h := g'.types i shape (g.types i shape h)
  values i r h := by
    obtain ⟨r', read', type', kind'⟩ := g.values i r h
    obtain ⟨r'', read'', type'', kind''⟩ := g'.values i r' read'
    exact ⟨r'', read'', type''.trans type', kind'.trans kind''⟩
  blocks i r h := by
    obtain ⟨r', read', step'⟩ := g.blocks i r h
    obtain ⟨r'', read'', step''⟩ := g'.blocks i r' read'
    exact ⟨r'', read'', step'.trans step''⟩
  modules i r h := by
    obtain ⟨r', read', step'⟩ := g.modules i r h
    obtain ⟨r'', read'', step''⟩ := g'.modules i r' read'
    exact ⟨r'', read'', step'.trans step''⟩
  emptyModules i h := g'.emptyModules i (g.emptyModules i h)

variable (g : ctx.Grows ctx')
include g

theorem shape {t : TypeRef} {shape : Shape} (h : ctx.shape t = .ok shape) :
    ctx'.shape t = .ok shape := by
  obtain ⟨owner, read⟩ := shape_eq_ok.mp h
  exact shape_eq_ok.mpr ⟨owner.trans g.id.symm, g.types _ _ read⟩

theorem value {v : ValueRef} {r : ValueRecord} (h : ctx.value v = .ok r) :
    ∃ r', ctx'.value v = .ok r' ∧ r'.type = r.type ∧ r.kind.Becomes r'.kind := by
  obtain ⟨owner, read, live⟩ := value_eq_ok.mp h
  obtain ⟨r', read', type', kind'⟩ := g.values _ _ read
  exact ⟨r', value_eq_ok.mpr ⟨owner.trans g.id.symm, read', mt kind'.erased_iff.mp live⟩,
    type', kind'⟩

theorem fixedValue {v : ValueRef} {r : ValueRecord} {kind : ValueKind} (h : ctx.value v = .ok r)
    (holds : r.kind = kind) (fixed : kind.isFixed = true) :
    ∃ r', ctx'.value v = .ok r' ∧ r'.type = r.type ∧ r'.kind = kind := by
  obtain ⟨r', read', type', step⟩ := g.value h
  exact ⟨r', read', type', (holds ▸ step).eq_of_fixed fixed⟩

theorem valueType {v : ValueRef} {t : TypeRef} (h : ctx.valueType v = .ok t) :
    ctx'.valueType v = .ok t := by
  obtain ⟨r, read, rfl⟩ := valueType_eq_ok.mp h
  obtain ⟨r', read', same, _⟩ := g.value read
  exact valueType_eq_ok.mpr ⟨r', read', same⟩

theorem block {b : BlockRef} {r : BlockRecord} (h : ctx.block b = .ok r) :
    ∃ r', ctx'.block b = .ok r' ∧ r.Becomes r' := by
  obtain ⟨owner, read, live⟩ := block_eq_ok.mp h
  obtain ⟨r', read', step⟩ := g.blocks _ _ read
  exact ⟨r', block_eq_ok.mpr ⟨owner.trans g.id.symm, read', step.erased.trans live⟩, step⟩

theorem module {m : ModuleRef} {r : ModuleRecord} (h : ctx.module m = .ok r) :
    ∃ r', ctx'.module m = .ok r' ∧ r.Becomes r' := by
  obtain ⟨owner, read⟩ := module_eq_ok.mp h
  obtain ⟨r', read', step⟩ := g.modules _ _ read
  exact ⟨r', module_eq_ok.mpr ⟨owner.trans g.id.symm, read'⟩, step⟩

theorem global {v : GlobalRef} {r : GlobalRecord} (h : ctx.global v = .ok r) :
    ∃ r', ctx'.global v = .ok r' ∧ r'.module = r.module ∧ r'.valueType = r.valueType := by
  obtain ⟨value, read, kind⟩ := global_eq_ok.mp h
  obtain ⟨value', read', _, step⟩ := g.value read
  obtain ⟨r', kind', same⟩ := (kind ▸ step).of_global
  exact ⟨r', global_eq_ok.mpr ⟨value', read', kind'⟩, same⟩

theorem function {f : FunctionRef} {r : FunctionRecord} (h : ctx.function f = .ok r) :
    ∃ r', ctx'.function f = .ok r' ∧ r'.module = r.module ∧ r'.signature = r.signature ∧
      r'.args = r.args ∧ r.blocks.Sublist r'.blocks := by
  obtain ⟨value, read, kind⟩ := function_eq_ok.mp h
  obtain ⟨value', read', _, step⟩ := g.value read
  obtain ⟨r', kind', same⟩ := (kind ▸ step).of_function
  exact ⟨r', function_eq_ok.mpr ⟨value', read', kind'⟩, same⟩

theorem argument {a : ArgumentRef} {r : ArgumentRecord} (h : ctx.argument a = .ok r) :
    ctx'.argument a = .ok r := by
  obtain ⟨value, read, kind⟩ := argument_eq_ok.mp h
  obtain ⟨value', read', _, kind'⟩ := g.fixedValue read kind rfl
  exact argument_eq_ok.mpr ⟨value', read', kind'⟩

theorem instruction {i : InstructionRef} {r : InstructionRecord}
    (h : ctx.instruction i = .ok r) :
    ∃ r', ctx'.instruction i = .ok r' ∧ r'.parent = r.parent ∧
      r'.operation.bare = r.operation.bare := by
  obtain ⟨value, read, kind⟩ := instruction_eq_ok.mp h
  obtain ⟨value', read', _, step⟩ := g.value read
  obtain ⟨r', kind', same⟩ := (kind ▸ step).of_instruction
  exact ⟨r', instruction_eq_ok.mpr ⟨value', read', kind'⟩, same⟩

theorem values_size : ctx.values.size ≤ ctx'.values.size := by
  refine Nat.le_of_not_lt fun shrunk => ?_
  obtain ⟨r, read⟩ : ∃ r, ctx.values[ctx'.values.size]? = some r :=
    ⟨_, Array.getElem?_eq_getElem shrunk⟩
  obtain ⟨r', read', _⟩ := g.values _ _ read
  simp at read'

end Grows

/-- Growth that adds no instruction and gives no block that exists a function. -/
structure Extends (ctx ctx' : Context) : Prop extends ctx.Grows ctx' where
  instructions : ∀ i r', ctx'.instruction i = .ok r' → ∃ r, ctx.instruction i = .ok r
  parents : ∀ b r r', ctx.block b = .ok r → ctx'.block b = .ok r' → r'.parent = r.parent

namespace Extends

variable {ctx ctx' ctx'' : Context}

theorem refl (ctx : Context) : ctx.Extends ctx where
  toGrows := .refl ctx
  instructions _ r' h := ⟨r', h⟩
  parents b r r' h h' := by
    obtain rfl : r = r' := by simpa [h] using h'
    rfl

theorem trans (e : ctx.Extends ctx') (e' : ctx'.Extends ctx'') : ctx.Extends ctx'' where
  toGrows := e.toGrows.trans e'.toGrows
  instructions i r'' h := by
    obtain ⟨r', read'⟩ := e'.instructions i r'' h
    exact e.instructions i r' read'
  parents b r r'' h h'' := by
    obtain ⟨r', read', _⟩ := e.toGrows.block h
    exact (e'.parents b r' r'' read' h'').trans (e.parents b r r' h read')

end Extends
end Context
end ModuleIR
