import ModuleIR.Proofs.Arena.Anchoring

set_option autoImplicit false

/-!
# Well-formed contexts

What holds of a context between two operations: types are made of earlier types, values have types
of the context, whoever is listed by an owner points back to it and is listed by no other, an
initializer is at home in its module, the constant table holds exactly the constants that are alive.
The one reference that is not looked up when it is stored, the target of a branch, is bounded only if
it is of the context; the value returned from a detached block likewise.

Each part is monotone in growth, so that `WellFormed.grow` asks of a change only what it says about
the records that it adds or rewrites.
-/
namespace ModuleIR

def ValueKind.key? : ValueKind → Option ConstantKey
  | .int n => some (.int n)
  | .bytes content => some (.bytes content)
  | .elementPtr e => some (.elementPtr e.base e.indices e.inBounds)
  | _ => none

def ValueKind.bare : ValueKind → ValueKind
  | .global g => .global { g with linkage := .external }
  | .function f => .function { f with linkage := .external, convention := .c }
  | .instruction i => .instruction { i with operation := i.operation.bare }
  | kind => kind

namespace Context

def HasType (ctx : Context) (t : TypeRef) : Prop := ∃ shape, ctx.shape t = .ok shape

/-- What a handle that carries the context's number names: an entry of the arena that the view
accepts, or the tombstone of one. -/
def Fits (ctx : Context) : Handle → Prop
  | .type view t => ∃ shape, ctx.types[t.index]? = some shape ∧ view.accepts shape = true
  | .value view v => ∃ r, ctx.values[v.index]? = some r ∧
    (view.accepts r.kind = true ∨ r.kind = .erased)
  | .block b => ∃ r, ctx.blocks[b.index]? = some r
  | .module m => ∃ r, ctx.modules[m.index]? = some r

def Holds (ctx : Context) (h : Handle) : Prop := h.owner = ctx.id ∧ ctx.Fits h

/-- A handle fits this context if it is of it. -/
def Admits (ctx : Context) (h : Handle) : Prop := h.owner = ctx.id → ctx.Fits h

structure ElementPtrSound (ctx : Context) (i : Nat) (e : ElementPtrRecord) : Prop where
  sourceType : ctx.HasType e.sourceType
  baseBefore : e.base.index < i
  base : ∃ r, ctx.value e.base = .ok r ∧ r.kind.isConstant = true
  indicesBefore : ∀ u ∈ e.indices, u.index < i
  indices : ∀ u ∈ e.indices, ∃ r n, ctx.value u = .ok r ∧ r.kind = .int n

/-- An initializer is a constant that is free or at home in the module. -/
structure InitializerSound (ctx : Context) (m : ModuleRef) (init : ConstantRef) : Prop where
  constant : ∃ r, ctx.value init.value = .ok r ∧ r.kind.isConstant = true
  home : ctx.Anchored init.value .free ∨ ctx.Anchored init.value (.module m)

structure GlobalSound (ctx : Context) (i : Nat) (g : GlobalRecord) : Prop where
  valueType : ctx.HasType g.valueType
  listed : ∃ r, ctx.module g.module = .ok r ∧ (⟨⟨ctx.id, i⟩⟩ : GlobalRef) ∈ r.globals
  initializer : ∀ init, g.initializer = some init → ctx.InitializerSound g.module init

structure FunctionSound (ctx : Context) (i : Nat) (f : FunctionRecord) : Prop where
  signature : ∃ result params variadic,
    ctx.shape f.signature.type = .ok (.function result params variadic)
  listed : ∃ r, ctx.module f.module = .ok r ∧ (⟨⟨ctx.id, i⟩⟩ : FunctionRef) ∈ r.functions
  args : ∀ a ∈ f.args, ∃ r, ctx.argument a = .ok r ∧ r.parent = ⟨⟨ctx.id, i⟩⟩
  blocks : ∀ b ∈ f.blocks, ∃ r, ctx.block b = .ok r ∧ r.parent = some ⟨⟨ctx.id, i⟩⟩
  blocksNodup : f.blocks.Nodup
  names : ∀ h ∈ f.names.handles, ctx.Holds h

def ArgumentSound (ctx : Context) (i : Nat) (a : ArgumentRecord) : Prop :=
  ∃ r, ctx.function a.parent = .ok r ∧ (⟨⟨ctx.id, i⟩⟩ : ArgumentRef) ∈ r.args

structure InstructionSound (ctx : Context) (i : Nat) (r : InstructionRecord) : Prop where
  listed : ∃ b, ctx.block r.parent = .ok b ∧ (⟨⟨ctx.id, i⟩⟩ : InstructionRef) ∈ b.instructions
  references : ∀ h ∈ r.operation.handles, ctx.Admits h

def KindSound (ctx : Context) (i : Nat) (type : TypeRef) : ValueKind → Prop
  | .int n => ctx.shape type = .ok (.integer n.bits)
  | .bytes _ | .erased => True
  | .elementPtr e => ctx.ElementPtrSound i e
  | .global g => ctx.GlobalSound i g
  | .function f => ctx.FunctionSound i f
  | .argument a => ctx.ArgumentSound i a
  | .instruction r => ctx.InstructionSound i r

structure ValueSound (ctx : Context) (i : Nat) (r : ValueRecord) : Prop where
  type : ctx.HasType r.type
  kind : ctx.KindSound i r.type r.kind

structure BlockSound (ctx : Context) (i : Nat) (r : BlockRecord) : Prop where
  owner : ∀ f, r.parent = some f → f.value.ctx = ctx.id
  tombstone : r.erased = true → r.instructions = []
  parent : r.erased = false → ∀ f, r.parent = some f →
    ∃ fr, ctx.function f = .ok fr ∧ (⟨ctx.id, i⟩ : BlockRef) ∈ fr.blocks
  instructions : ∀ j ∈ r.instructions, ∃ ir, ctx.instruction j = .ok ir ∧ ir.parent = ⟨ctx.id, i⟩
  nodup : r.instructions.Nodup

structure ModuleSound (ctx : Context) (i : Nat) (r : ModuleRecord) : Prop where
  globals : ∀ g ∈ r.globals, ∃ gr, ctx.global g = .ok gr ∧ gr.module = ⟨ctx.id, i⟩
  globalsNodup : r.globals.Nodup
  functions : ∀ f ∈ r.functions, ∃ fr, ctx.function f = .ok fr ∧ fr.module = ⟨ctx.id, i⟩
  functionsNodup : r.functions.Nodup
  names : ∀ h ∈ r.names.handles, ctx.Holds h

/-- An operand is of the context, unless it is returned from a detached block. -/
def OperandOwned (ctx : Context) (r : InstructionRecord) (u : ValueRef) : Prop :=
  u.ctx = ctx.id ∨
    (r.operation = .ret (some u) ∧ ∃ b, ctx.block r.parent = .ok b ∧ b.parent = none)

structure WellFormed (ctx : Context) : Prop where
  inner : ∀ (i : Nat) shape, ctx.types[i]? = some shape →
    ∀ t ∈ shape.inner, t.ctx = ctx.id ∧ t.index < i
  typeTable : ∀ shape t, ctx.typeTable.find? shape = some t ↔ ctx.shape t = .ok shape
  values : ∀ (i : Nat) r, ctx.values[i]? = some r → ctx.ValueSound i r
  blocks : ∀ (i : Nat) r, ctx.blocks[i]? = some r → ctx.BlockSound i r
  modules : ∀ (i : Nat) r, ctx.modules[i]? = some (some r) → ctx.ModuleSound i r
  operands : ∀ i r, ctx.instruction i = .ok r → ∀ u ∈ r.operation.operands, ctx.OperandOwned r u
  constants : ∀ key v, (key, v) ∈ ctx.constantTable.entries →
    ∃ r, ctx.value v = .ok r ∧ r.kind.key? = some key
  tabled : ∀ v r key, ctx.value v = .ok r → r.kind.key? = some key →
    (key, v) ∈ ctx.constantTable.entries

/-! ### Monotonicity -/

variable {ctx ctx' : Context}

namespace Grows

variable (g : ctx.Grows ctx')
include g

theorem hasType {t : TypeRef} (h : ctx.HasType t) : ctx'.HasType t := by
  obtain ⟨shape, read⟩ := h
  exact ⟨shape, g.shape read⟩

theorem fits {h : Handle} (fits : ctx.Fits h) : ctx'.Fits h := by
  cases h with
  | type view t =>
    obtain ⟨shape, read, accepted⟩ := fits
    exact ⟨shape, g.types _ _ read, accepted⟩
  | value view v =>
    obtain ⟨r, read, accepted⟩ := fits
    obtain ⟨r', read', _, step⟩ := g.values _ _ read
    exact ⟨r', read', by rwa [step.accepts_eq, step.erased_iff]⟩
  | block b =>
    obtain ⟨r, read⟩ := fits
    obtain ⟨r', read', _⟩ := g.blocks _ _ read
    exact ⟨r', read'⟩
  | module m =>
    obtain ⟨place, read⟩ := fits
    cases place with
    | none => exact ⟨none, g.emptyModules _ read⟩
    | some r =>
      obtain ⟨r', read', _⟩ := g.modules _ _ read
      exact ⟨some r', read'⟩

theorem admits {h : Handle} (admitted : ctx.Admits h) : ctx'.Admits h :=
  fun owner => g.fits (admitted (owner.trans g.id))

theorem holds {h : Handle} (held : ctx.Holds h) : ctx'.Holds h :=
  ⟨held.1.trans g.id.symm, g.fits held.2⟩

theorem constantValue {v : ValueRef} (h : ∃ r, ctx.value v = .ok r ∧ r.kind.isConstant = true) :
    ∃ r, ctx'.value v = .ok r ∧ r.kind.isConstant = true := by
  obtain ⟨r, read, constant⟩ := h
  obtain ⟨r', read', _, step⟩ := g.value read
  exact ⟨r', read', step.isConstant_eq.trans constant⟩

theorem intValue {v : ValueRef} (h : ∃ r n, ctx.value v = .ok r ∧ r.kind = .int n) :
    ∃ r n, ctx'.value v = .ok r ∧ r.kind = .int n := by
  obtain ⟨r, n, read, kind⟩ := h
  obtain ⟨r', read', _, kind'⟩ := g.fixedValue read kind rfl
  exact ⟨r', n, read', kind'⟩

theorem elementPtrSound {i : Nat} {e : ElementPtrRecord} (h : ctx.ElementPtrSound i e) :
    ctx'.ElementPtrSound i e where
  sourceType := g.hasType h.sourceType
  baseBefore := h.baseBefore
  base := g.constantValue h.base
  indicesBefore := h.indicesBefore
  indices u hu := g.intValue (h.indices u hu)

theorem initializerSound {m : ModuleRef} {init : ConstantRef} (h : ctx.InitializerSound m init) :
    ctx'.InitializerSound m init where
  constant := g.constantValue h.constant
  home := h.home.imp (·.grow g (by simp)) (·.grow g (by simp))

theorem globalSound {i : Nat} {r : GlobalRecord} (h : ctx.GlobalSound i r) :
    ctx'.GlobalSound i r where
  valueType := g.hasType h.valueType
  listed := by
    obtain ⟨m, read, mem⟩ := h.listed
    obtain ⟨m', read', step⟩ := g.module read
    exact ⟨m', read', g.id ▸ step.globals.subset mem⟩
  initializer init hi := g.initializerSound (h.initializer init hi)

theorem functionSound {i : Nat} {r : FunctionRecord} (h : ctx.FunctionSound i r) :
    ctx'.FunctionSound i r where
  signature := by
    obtain ⟨result, params, variadic, read⟩ := h.signature
    exact ⟨result, params, variadic, g.shape read⟩
  listed := by
    obtain ⟨m, read, mem⟩ := h.listed
    obtain ⟨m', read', step⟩ := g.module read
    exact ⟨m', read', g.id ▸ step.functions.subset mem⟩
  args a ha := by
    obtain ⟨ar, read, parent⟩ := h.args a ha
    exact ⟨ar, g.argument read, g.id ▸ parent⟩
  blocks b hb := by
    obtain ⟨br, read, parent⟩ := h.blocks b hb
    obtain ⟨br', read', step⟩ := g.block read
    exact ⟨br', read', g.id ▸ step.parent _ parent⟩
  blocksNodup := h.blocksNodup
  names n hn := g.holds (h.names n hn)

theorem argumentSound {i : Nat} {a : ArgumentRecord} (h : ctx.ArgumentSound i a) :
    ctx'.ArgumentSound i a := by
  obtain ⟨f, read, mem⟩ := h
  obtain ⟨f', read', _, _, args, _⟩ := g.function read
  exact ⟨f', read', by rw [args, g.id]; exact mem⟩

theorem instructionSound {i : Nat} {r : InstructionRecord} (h : ctx.InstructionSound i r) :
    ctx'.InstructionSound i r where
  listed := by
    obtain ⟨b, read, mem⟩ := h.listed
    obtain ⟨b', read', step⟩ := g.block read
    exact ⟨b', read', g.id ▸ step.instructions.subset mem⟩
  references u hu := g.admits (h.references u hu)

theorem kindSound {i : Nat} {t : TypeRef} {kind : ValueKind} (h : ctx.KindSound i t kind) :
    ctx'.KindSound i t kind := by
  cases kind with
  | int n => exact g.shape h
  | bytes | erased => exact trivial
  | elementPtr e => exact g.elementPtrSound h
  | global r => exact g.globalSound h
  | function r => exact g.functionSound h
  | argument a => exact g.argumentSound h
  | instruction r => exact g.instructionSound h

theorem valueSound {i : Nat} {r : ValueRecord} (h : ctx.ValueSound i r) : ctx'.ValueSound i r :=
  ⟨g.hasType h.type, g.kindSound h.kind⟩

theorem blockSound {i : Nat} {r : BlockRecord} (h : ctx.BlockSound i r) : ctx'.BlockSound i r where
  owner f hf := (h.owner f hf).trans g.id.symm
  tombstone := h.tombstone
  parent live f hf := by
    obtain ⟨fr, read, mem⟩ := h.parent live f hf
    obtain ⟨fr', read', _, _, _, blocks⟩ := g.function read
    exact ⟨fr', read', g.id ▸ blocks.subset mem⟩
  instructions j hj := by
    obtain ⟨ir, read, parent⟩ := h.instructions j hj
    obtain ⟨ir', read', parent', _⟩ := g.instruction read
    exact ⟨ir', read', by rw [parent', parent, g.id]⟩
  nodup := h.nodup

theorem moduleSound {i : Nat} {r : ModuleRecord} (h : ctx.ModuleSound i r) :
    ctx'.ModuleSound i r where
  globals v hv := by
    obtain ⟨gr, read, home⟩ := h.globals v hv
    obtain ⟨gr', read', module, _⟩ := g.global read
    exact ⟨gr', read', by rw [module, home, g.id]⟩
  globalsNodup := h.globalsNodup
  functions f hf := by
    obtain ⟨fr, read, home⟩ := h.functions f hf
    obtain ⟨fr', read', module, _⟩ := g.function read
    exact ⟨fr', read', by rw [module, home, g.id]⟩
  functionsNodup := h.functionsNodup
  names n hn := g.holds (h.names n hn)

end Grows

theorem kindSound_bare {i : Nat} {t : TypeRef} {kind : ValueKind} :
    ctx.KindSound i t kind.bare ↔ ctx.KindSound i t kind := by
  cases kind with
  | global g => exact ⟨fun h => ⟨h.1, h.2, h.3⟩, fun h => ⟨h.1, h.2, h.3⟩⟩
  | function f =>
    exact ⟨fun h => ⟨h.1, h.2, h.3, h.4, h.5, h.6⟩, fun h => ⟨h.1, h.2, h.3, h.4, h.5, h.6⟩⟩
  | instruction r =>
    constructor
    · exact fun h => ⟨h.1, fun u hu => h.2 u (by simpa [ValueKind.bare] using hu)⟩
    · exact fun h => ⟨h.1, fun u hu => h.2 u (by simpa [ValueKind.bare] using hu)⟩
  | _ => rfl

/-- The same value but for its name and its attributes. -/
structure Alike (r r' : ValueRecord) : Prop where
  type : r'.type = r.type
  kind : r'.kind.bare = r.kind.bare

theorem Alike.refl (r : ValueRecord) : Alike r r := ⟨rfl, rfl⟩

theorem Alike.key?_eq {r r' : ValueRecord} (h : Alike r r') : r'.kind.key? = r.kind.key? := by
  have key?_bare : ∀ kind : ValueKind, kind.bare.key? = kind.key? := by
    intro kind
    cases kind <;> rfl
  rw [← key?_bare, h.kind, key?_bare]

/-- What a growing change has to say about what it adds or rewrites. -/
theorem WellFormed.grow (wf : ctx.WellFormed) (g : ctx.Grows ctx')
    (inner : ∀ (i : Nat) shape, ctx'.types[i]? = some shape →
      ctx.types[i]? = some shape ∨ ∀ t ∈ shape.inner, t.ctx = ctx.id ∧ t.index < i)
    (typeTable : ∀ shape t, ctx'.typeTable.find? shape = some t ↔ ctx'.shape t = .ok shape)
    (values : ∀ (i : Nat) r', ctx'.values[i]? = some r' →
      (∃ r, ctx.values[i]? = some r ∧ Alike r r') ∨ ctx'.ValueSound i r')
    (blocks : ∀ (i : Nat) r', ctx'.blocks[i]? = some r' →
      (∃ r, ctx.blocks[i]? = some r ∧ r' = { r with name := r'.name }) ∨ ctx'.BlockSound i r')
    (modules : ∀ (i : Nat) r', ctx'.modules[i]? = some (some r') →
      ctx.modules[i]? = some (some r') ∨ ctx'.ModuleSound i r')
    (operands : ∀ i r, ctx'.instruction i = .ok r → ∀ u ∈ r.operation.operands,
      ctx'.OperandOwned r u)
    (constants : ∀ key v, (key, v) ∈ ctx'.constantTable.entries →
      (key, v) ∈ ctx.constantTable.entries ∨ ∃ r, ctx'.value v = .ok r ∧ r.kind.key? = some key)
    (tabled : ∀ v r key, ctx'.value v = .ok r → r.kind.key? = some key →
      (key, v) ∈ ctx'.constantTable.entries) : ctx'.WellFormed where
  inner i shape h t ht := by
    rw [g.id]
    rcases inner i shape h with old | fresh
    · exact wf.inner i shape old t ht
    · exact fresh t ht
  typeTable := typeTable
  values i r' h := by
    rcases values i r' h with ⟨r, old, alike⟩ | fresh
    · have sound := g.valueSound (wf.values i r old)
      refine ⟨alike.type ▸ sound.type, ?_⟩
      rw [← kindSound_bare, alike.kind, alike.type, kindSound_bare]
      exact sound.kind
    · exact fresh
  blocks i r' h := by
    rcases blocks i r' h with ⟨r, old, same⟩ | fresh
    · have sound := g.blockSound (wf.blocks i r old)
      rw [same]
      exact ⟨sound.1, sound.2, sound.3, sound.4, sound.5⟩
    · exact fresh
  modules i r' h := by
    rcases modules i r' h with old | fresh
    · exact g.moduleSound (wf.modules i r' old)
    · exact fresh
  operands := operands
  constants key v h := by
    rcases constants key v h with old | fresh
    · obtain ⟨r, read, same⟩ := wf.constants key v old
      obtain ⟨r', read', _, step⟩ := g.value read
      refine ⟨r', read', ?_⟩
      cases step' : r.kind <;> rw [step'] at same step <;> simp only [ValueKind.key?] at same
      all_goals cases hk : r'.kind <;> rw [hk] at step <;> cases step <;> exact same
    · exact fresh
  tabled := tabled

/-! ### Reading a well-formed context -/

theorem holds_value {view : ValueView} {v : ValueRef} {r : ValueRecord} (h : ctx.value v = .ok r)
    (accepted : view.accepts r.kind = true) : ctx.Holds (.value view v) :=
  ⟨(value_eq_ok.mp h).1, r, (value_eq_ok.mp h).2.1, .inl accepted⟩

theorem holds_global {view : ValueView} {g : GlobalRef} {r : GlobalRecord}
    (h : ctx.global g = .ok r) (accepted : view.accepts (.global r) = true) :
    ctx.Holds (.value view g.value) := by
  obtain ⟨value, read, kind⟩ := global_eq_ok.mp h
  exact holds_value read (kind ▸ accepted)

theorem holds_function {view : ValueView} {f : FunctionRef} {r : FunctionRecord}
    (h : ctx.function f = .ok r) (accepted : view.accepts (.function r) = true) :
    ctx.Holds (.value view f.value) := by
  obtain ⟨value, read, kind⟩ := function_eq_ok.mp h
  exact holds_value read (kind ▸ accepted)

theorem holds_block {b : BlockRef} {r : BlockRecord} (h : ctx.block b = .ok r) :
    ctx.Holds (.block b) :=
  ⟨(block_eq_ok.mp h).1, r, (block_eq_ok.mp h).2.1⟩

theorem holds_module {m : ModuleRef} {r : ModuleRecord} (h : ctx.module m = .ok r) :
    ctx.Holds (.module m) :=
  ⟨(module_eq_ok.mp h).1, some r, (module_eq_ok.mp h).2⟩

theorem holds_type {view : TypeView} {t : TypeRef} {shape : Shape} (h : ctx.shape t = .ok shape)
    (accepted : view.accepts shape = true) : ctx.Holds (.type view t) :=
  ⟨(shape_eq_ok.mp h).1, shape, (shape_eq_ok.mp h).2, accepted⟩

theorem value_self {v : ValueRef} {r : ValueRecord} (h : ctx.value v = .ok r) :
    (⟨ctx.id, v.index⟩ : ValueRef) = v := by
  rw [← (value_eq_ok.mp h).1]

theorem block_self {b : BlockRef} {r : BlockRecord} (h : ctx.block b = .ok r) :
    (⟨ctx.id, b.index⟩ : BlockRef) = b := by
  rw [← (block_eq_ok.mp h).1]

theorem module_self {m : ModuleRef} {r : ModuleRecord} (h : ctx.module m = .ok r) :
    (⟨ctx.id, m.index⟩ : ModuleRef) = m := by
  rw [← (module_eq_ok.mp h).1]

theorem function_self {f : FunctionRef} {r : FunctionRecord} (h : ctx.function f = .ok r) :
    (⟨⟨ctx.id, f.value.index⟩⟩ : FunctionRef) = f := by
  obtain ⟨value, read, _⟩ := function_eq_ok.mp h
  rw [value_self read]

namespace WellFormed

variable (wf : ctx.WellFormed)
include wf

theorem valueSound {v : ValueRef} {r : ValueRecord} (h : ctx.value v = .ok r) :
    ctx.ValueSound v.index r :=
  wf.values _ r (value_eq_ok.mp h).2.1

theorem hasType_inner {t u : TypeRef} {shape : Shape} (read : ctx.shape t = .ok shape)
    (mem : u ∈ shape.inner) : ctx.HasType u := by
  obtain ⟨_, stored⟩ := shape_eq_ok.mp read
  obtain ⟨owner, before⟩ := wf.inner _ shape stored u mem
  have inside := (Array.getElem?_eq_some_iff.mp stored).1
  exact ⟨_, shape_eq_ok.mpr ⟨owner, Array.getElem?_eq_getElem (by omega)⟩⟩

/-- The types inside a type come first. -/
theorem type_induction {motive : TypeRef → Prop}
    (step : ∀ t s, ctx.shape t = .ok s → (∀ u ∈ s.inner, ctx.HasType u ∧ motive u) → motive t)
    {t : TypeRef} (has : ctx.HasType t) : motive t := by
  induction place : t.index using Nat.strongRecOn generalizing t with
  | _ n ih =>
    obtain ⟨s, read⟩ := has
    refine step t s read fun u mem => ?_
    have before := (wf.inner _ s (shape_eq_ok.mp read).2 u mem).2
    exact ⟨wf.hasType_inner read mem, ih u.index (place ▸ before) (wf.hasType_inner read mem) rfl⟩

theorem basesBefore : ctx.BasesBefore := by
  intro v r e read kind
  have sound := (wf.valueSound read).kind
  rw [kind] at sound
  exact sound.baseBefore

theorem anchor_eq_ok {v : ValueRef} {anchor : Anchor} :
    ctx.anchor v = .ok anchor ↔ ctx.Anchored v anchor :=
  Context.anchor_eq_ok wf.basesBefore

theorem elementPtrSound {v : ValueRef} {r : ValueRecord} {e : ElementPtrRecord}
    (h : ctx.value v = .ok r) (kind : r.kind = .elementPtr e) :
    ctx.ElementPtrSound v.index e := by
  have sound := (wf.valueSound h).kind
  rwa [kind] at sound

theorem globalSound {g : GlobalRef} {r : GlobalRecord} (h : ctx.global g = .ok r) :
    ctx.GlobalSound g.value.index r := by
  obtain ⟨value, read, kind⟩ := global_eq_ok.mp h
  have sound := (wf.valueSound read).kind
  rwa [kind] at sound

theorem functionSound {f : FunctionRef} {r : FunctionRecord} (h : ctx.function f = .ok r) :
    ctx.FunctionSound f.value.index r := by
  obtain ⟨value, read, kind⟩ := function_eq_ok.mp h
  have sound := (wf.valueSound read).kind
  rwa [kind] at sound

theorem instructionSound {i : InstructionRef} {r : InstructionRecord}
    (h : ctx.instruction i = .ok r) : ctx.InstructionSound i.value.index r := by
  obtain ⟨value, read, kind⟩ := instruction_eq_ok.mp h
  have sound := (wf.valueSound read).kind
  rwa [kind] at sound

theorem blockSound {b : BlockRef} {r : BlockRecord} (h : ctx.block b = .ok r) :
    ctx.BlockSound b.index r :=
  wf.blocks _ r (block_eq_ok.mp h).2.1

theorem moduleSound {m : ModuleRef} {r : ModuleRecord} (h : ctx.module m = .ok r) :
    ctx.ModuleSound m.index r :=
  wf.modules _ r (module_eq_ok.mp h).2

theorem global_listed {g : GlobalRef} {r : GlobalRecord} (h : ctx.global g = .ok r) :
    ∃ mr, ctx.module r.module = .ok mr ∧ g ∈ mr.globals := by
  obtain ⟨mr, read, mem⟩ := (wf.globalSound h).listed
  obtain ⟨value, read', _⟩ := global_eq_ok.mp h
  exact ⟨mr, read, by rwa [value_self read'] at mem⟩

theorem function_listed {f : FunctionRef} {r : FunctionRecord} (h : ctx.function f = .ok r) :
    ∃ mr, ctx.module r.module = .ok mr ∧ f ∈ mr.functions := by
  obtain ⟨mr, read, mem⟩ := (wf.functionSound h).listed
  exact ⟨mr, read, by rwa [function_self h] at mem⟩

theorem block_listed {b : BlockRef} {r : BlockRecord} {f : FunctionRef} (h : ctx.block b = .ok r)
    (parent : r.parent = some f) : ∃ fr, ctx.function f = .ok fr ∧ b ∈ fr.blocks := by
  obtain ⟨fr, read, mem⟩ := (wf.blockSound h).parent (block_eq_ok.mp h).2.2 f parent
  exact ⟨fr, read, by rwa [block_self h] at mem⟩

theorem instruction_listed {i : InstructionRef} {r : InstructionRecord}
    (h : ctx.instruction i = .ok r) : ∃ br, ctx.block r.parent = .ok br ∧ i ∈ br.instructions := by
  obtain ⟨br, read, mem⟩ := (wf.instructionSound h).listed
  obtain ⟨value, read', _⟩ := instruction_eq_ok.mp h
  exact ⟨br, read, by rwa [value_self read'] at mem⟩

theorem argument_listed {a : ArgumentRef} {r : ArgumentRecord} (h : ctx.argument a = .ok r) :
    ∃ fr, ctx.function r.parent = .ok fr ∧ a ∈ fr.args := by
  obtain ⟨value, read, kind⟩ := argument_eq_ok.mp h
  have sound : ctx.ArgumentSound a.value.index r := by
    have := (wf.valueSound read).kind
    rwa [kind] at this
  obtain ⟨fr, known, mem⟩ := sound
  exact ⟨fr, known, by rwa [value_self read] at mem⟩

theorem module_global {m : ModuleRef} {r : ModuleRecord} {g : GlobalRef}
    (h : ctx.module m = .ok r) (mem : g ∈ r.globals) :
    ∃ gr, ctx.global g = .ok gr ∧ gr.module = m := by
  obtain ⟨gr, read, home⟩ := (wf.moduleSound h).globals g mem
  exact ⟨gr, read, by rwa [module_self h] at home⟩

theorem module_function {m : ModuleRef} {r : ModuleRecord} {f : FunctionRef}
    (h : ctx.module m = .ok r) (mem : f ∈ r.functions) :
    ∃ fr, ctx.function f = .ok fr ∧ fr.module = m := by
  obtain ⟨fr, read, home⟩ := (wf.moduleSound h).functions f mem
  exact ⟨fr, read, by rwa [module_self h] at home⟩

theorem function_block {f : FunctionRef} {r : FunctionRecord} {b : BlockRef}
    (h : ctx.function f = .ok r) (mem : b ∈ r.blocks) :
    ∃ br, ctx.block b = .ok br ∧ br.parent = some f := by
  obtain ⟨br, read, home⟩ := (wf.functionSound h).blocks b mem
  exact ⟨br, read, by rwa [function_self h] at home⟩

theorem function_argument {f : FunctionRef} {r : FunctionRecord} {a : ArgumentRef}
    (h : ctx.function f = .ok r) (mem : a ∈ r.args) :
    ∃ ar, ctx.argument a = .ok ar ∧ ar.parent = f := by
  obtain ⟨ar, read, home⟩ := (wf.functionSound h).args a mem
  exact ⟨ar, read, by rwa [function_self h] at home⟩

theorem block_instruction {b : BlockRef} {r : BlockRecord} {i : InstructionRef}
    (h : ctx.block b = .ok r) (mem : i ∈ r.instructions) :
    ∃ ir, ctx.instruction i = .ok ir ∧ ir.parent = b := by
  obtain ⟨ir, read, home⟩ := (wf.blockSound h).instructions i mem
  exact ⟨ir, read, by rwa [block_self h] at home⟩

end WellFormed

/-! ### A new context -/

theorem wellFormed_new (id : ContextId) : (Context.new id).WellFormed where
  inner i shape h := by simp [Context.new] at h
  typeTable shape t := by simp [Context.new, shape_eq_ok]
  values i r h := by simp [Context.new] at h
  blocks i r h := by simp [Context.new] at h
  modules i r h := by simp [Context.new] at h
  operands i r h := by simp [Context.new, instruction_eq_ok, value_eq_ok] at h
  constants key v h := by simp [Context.new, Table.empty] at h
  tabled v r key h := by simp [Context.new, value_eq_ok] at h

end Context
end ModuleIR
