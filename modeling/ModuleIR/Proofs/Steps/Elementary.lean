import Mathlib.Logic.Relation
import ModuleIR.Proofs.Arena.ElementWalk
import ModuleIR.Proofs.Steps.Blocks
import ModuleIR.Proofs.Steps.Instructions
import ModuleIR.Proofs.Steps.Uniqued

set_option autoImplicit false

/-!
# Elementary changes of a building step

Whatever a building step does to a context, it does by a few elementary changes: something is added
to an arena, a block is placed, an initializer is replaced, a record is revised in what else may vary.
`Context.Elementary` lists them with what was checked before, and `Context.Builds` is their closure. A
property of contexts that each elementary change keeps is kept by every step that builds.
-/
namespace ModuleIR

def ValueKind.initializer? : ValueKind → Option ConstantRef
  | .global g => g.initializer
  | _ => none

namespace Context

def Suits (ctx : Context) (type : TypeRef) : ValueKind → Prop
  | .int n => n.Built ∧ ctx.shape type = .ok (.integer n.bits)
  | .bytes content => ∃ byte, ctx.shape type = .ok (.array byte content.length) ∧
      ctx.shape byte = .ok (.integer 8)
  | .elementPtr e => ∃ r element space, ctx.value e.base = .ok r ∧
      ctx.shape r.type = .ok (.pointer e.sourceType space) ∧
      ctx.Reaches (e.indices.length - 1) e.sourceType element ∧
      ctx.shape type = .ok (.pointer element space)
  | .global g => ∃ space, ctx.shape type = .ok (.pointer g.valueType space)
  | .function f => ctx.shape type = .ok (.pointer f.signature.type .generic)
  | _ => True

/-- One argument for each parameter, which knows its function and position and has the parameter's
type. -/
def TakesParameters (ctx : Context) (f : FunctionRef) (fr : FunctionRecord) : Prop :=
  ∃ result params variadic, ctx.shape fr.signature.type = .ok (.function result params variadic) ∧
    fr.args.length = params.length ∧ ∀ (k : Nat) a, fr.args[k]? = some a →
      ∃ r, ctx.value a.value = .ok r ∧ params[k]? = some r.type ∧ r.kind = .argument ⟨f, k⟩

/-- One change of the arenas, with what is checked ahead of it. -/
inductive Elementary (ctx : Context) : Context → Prop
  | type {shape : Shape} (fresh : ctx.typeTable.find? shape = none) :
      Elementary ctx (ctx.addType shape)
  | constant {key : ConstantKey} {record : ValueRecord}
      (fresh : ctx.constantTable.find? key = none) (content : record.kind.key? = some key)
      (suits : ctx.Suits record.type record.kind) : Elementary ctx (ctx.addConstant key record)
  | module (name : String) :
      Elementary ctx { ctx with modules := ctx.modules.push (some { name }) }
  | global {type : TypeRef} {g : GlobalRecord} {position : Nat}
      (pointed : ctx.shape type = .ok (.pointer g.valueType g.space))
      (initialized : ∀ init, g.initializer = some init → ctx.valueType init.value = .ok g.valueType) :
      Elementary ctx (ctx.addGlobal type g position)
  | function {type result : TypeRef} {params : List TypeRef} {variadic : Bool}
      {signature : FunctionTypeRef} {linkage : Linkage} {m : ModuleRef} {args : List ArgumentRef}
      {filled : Context} (pointed : ctx.shape type = .ok (.pointer signature.type .generic))
      (signed : ctx.shape signature.type = .ok (.function result params variadic))
      (adds : (ctx.allocValue
        { type, kind := .function { module := m, signature, linkage } }).2.AddsArguments
          ⟨⟨ctx.id, ctx.values.size⟩⟩ args filled)
      (row : args.length = params.length ∧ ∀ (k : Nat) a, args[k]? = some a →
        a = ⟨⟨ctx.id, ctx.values.size + 1 + k⟩⟩ ∧ ∃ type, params[k]? = some type ∧
          filled.values[ctx.values.size + 1 + k]? =
            some { type, kind := .argument ⟨⟨⟨ctx.id, ctx.values.size⟩⟩, k⟩ }) :
      Elementary ctx (ctx.addFunction filled m args)
  | block (name : Option String) : Elementary ctx { ctx with blocks := ctx.blocks.push { name } }
  | place {b : BlockRef} {br : BlockRecord} {f : FunctionRef} {fr : FunctionRecord} {position : Nat}
      (read : ctx.block b = .ok br) (loose : br.parent = none) (known : ctx.function f = .ok fr) :
      Elementary ctx (ctx.placeBlock b f position)
  | instruction {b : BlockRef} {type : TypeRef} {operation : Operation}
      (opened : ctx.terminator? b = .ok none) : Elementary ctx (ctx.addInstruction b type operation)
  | revise {v : ValueRef} {f : ValueRecord → ValueRecord}
      (kept : ∀ r, ctx.values[v.index]? = some r → (f r).type = r.type ∧ r.kind.Becomes (f r).kind)
      (same : ∀ r, ctx.values[v.index]? = some r →
        (f r).kind.initializer? = r.kind.initializer?) :
      Elementary ctx (ctx.modifyValue v f)
  | initializer {g : GlobalRef} {gr : GlobalRecord} {initializer : Option ConstantRef}
      (known : ctx.global g = .ok gr)
      (initialized : ∀ init, initializer = some init →
        ctx.valueType init.value = .ok gr.valueType) :
      Elementary ctx
        (ctx.modifyValue g.value ({ · with kind := .global { gr with initializer } }))
  | blockName {b : BlockRef} {br : BlockRecord} (read : ctx.block b = .ok br) (name : Option String) :
      Elementary ctx (ctx.setBlockName b name)
  | moduleNames (m : ModuleRef) (names : NameTable) :
      Elementary ctx (ctx.modifyModule m ({ · with names }))

/-- Any number of elementary changes. -/
abbrev Builds : Context → Context → Prop := Relation.ReflTransGen Elementary

variable {ctx ctx' : Context}

/-! ### Types of contents -/

theorem Suits.grow (g : ctx.Grows ctx') {type : TypeRef} {kind : ValueKind}
    (h : ctx.Suits type kind) : ctx'.Suits type kind := by
  cases kind with
  | int n => exact ⟨h.1, g.shape h.2⟩
  | bytes content =>
    obtain ⟨byte, array, shaped⟩ := h
    exact ⟨byte, g.shape array, g.shape shaped⟩
  | elementPtr e =>
    obtain ⟨r, element, space, read, pointed, walk, shaped⟩ := h
    obtain ⟨r', read', type', _⟩ := g.value read
    exact ⟨r', element, space, read', type' ▸ g.shape pointed, walk.mono fun _ _ => g.shape,
      g.shape shaped⟩
  | global r =>
    obtain ⟨space, shaped⟩ := h
    exact ⟨space, g.shape shaped⟩
  | function r => exact g.shape (show ctx.shape type = _ from h)
  | argument | instruction | erased => exact trivial

theorem Suits.survive (same : ∀ t, ctx'.shape t = ctx.shape t) {type : TypeRef} {kind : ValueKind}
    (base : ∀ e, kind = .elementPtr e → ctx'.value e.base = ctx.value e.base)
    (h : ctx.Suits type kind) : ctx'.Suits type kind := by
  cases kind with
  | elementPtr e =>
    obtain ⟨r, element, space, read, pointed, walk, shaped⟩ := h
    exact ⟨r, element, space, (base e rfl).trans read, (same _).trans pointed,
      walk.mono fun t _ read => (same t).trans read, (same _).trans shaped⟩
  | int | bytes | global | function =>
    simp only [Suits, same] at h ⊢
    exact h
  | argument | instruction | erased => trivial

theorem Suits.become {type : TypeRef} {kind kind' : ValueKind} (step : kind.Becomes kind')
    (h : ctx.Suits type kind) : ctx.Suits type kind' := by
  cases step with
  | same => exact h
  | global module valueType =>
    obtain ⟨space, shaped⟩ := h
    exact ⟨space, by rw [valueType]; exact shaped⟩
  | function module signature => exact (congrArg (fun s : FunctionTypeRef => ctx.shape type =
      .ok (.pointer s.type .generic)) signature).mpr h
  | instruction => exact trivial

theorem TakesParameters.grow (g : ctx.Grows ctx') {f : FunctionRef} {fr fr' : FunctionRecord}
    (signature : fr'.signature = fr.signature) (args : fr'.args = fr.args)
    (h : ctx.TakesParameters f fr) : ctx'.TakesParameters f fr' := by
  obtain ⟨result, params, variadic, shaped, count, each⟩ := h
  refine ⟨result, params, variadic, signature ▸ g.shape shaped, args ▸ count, fun k a place => ?_⟩
  obtain ⟨r, read, type, kind⟩ := each k a (args ▸ place)
  obtain ⟨r', read', type', kind'⟩ := g.fixedValue read kind rfl
  exact ⟨r', read', type'.symm ▸ type, kind'⟩

/-- What holds of a value from when it is made. -/
def WellMade (ctx : Context) (v : ValueRef) (r : ValueRecord) : Prop :=
  ctx.Suits r.type r.kind ∧ ∀ fr, r.kind = .function fr → ctx.TakesParameters ⟨v⟩ fr

theorem WellMade.grow (g : ctx.Grows ctx') {v : ValueRef} {r r' : ValueRecord}
    (type : r'.type = r.type) (step : r.kind.Becomes r'.kind) (h : ctx.WellMade v r) :
    ctx'.WellMade v r' := by
  refine ⟨type ▸ (h.1.grow g).become step, fun fr' kind' => ?_⟩
  obtain ⟨fr, kind, _, signature, args, _⟩ := (kind' ▸ step).to_function
  exact (h.2 fr kind).grow g signature args

/-! ### What elementary changes do to values -/

def Stays (ctx : Context) (v : ValueRef) (r' : ValueRecord) : Prop :=
  ∃ r, ctx.value v = .ok r ∧ r'.type = r.type ∧ r.kind.Becomes r'.kind

theorem stays_of_stored {v : ValueRef} {r' : ValueRecord} (id : ctx'.id = ctx.id)
    (read' : ctx'.value v = .ok r') (same : ctx'.values[v.index]? = ctx.values[v.index]?) :
    ctx.Stays v r' := by
  obtain ⟨owner, stored, live⟩ := value_eq_ok.mp read'
  exact ⟨r', value_eq_ok.mpr ⟨owner.trans id, same ▸ stored, live⟩, rfl, .same _⟩

theorem stays_of_revised {u v : ValueRef} {f : ValueRecord → ValueRecord} {r' : ValueRecord}
    (kept : ∀ r, ctx.values[u.index]? = some r → (f r).type = r.type ∧ r.kind.Becomes (f r).kind)
    (read' : (ctx.modifyValue u f).value v = .ok r') : ctx.Stays v r' := by
  obtain ⟨owner, stored, live⟩ := value_eq_ok.mp read'
  rw [values_modifyValue] at stored
  split at stored
  · rename_i here
    obtain ⟨r, old, rfl⟩ := Option.map_eq_some_iff.mp stored
    obtain ⟨type, step⟩ := kept r (here ▸ old)
    exact ⟨r, value_eq_ok.mpr ⟨owner, old, mt step.erased_iff.mpr live⟩, type, step⟩
  · exact ⟨r', value_eq_ok.mpr ⟨owner, stored, live⟩, rfl, .same _⟩

theorem kept_of_function {change : FunctionRecord → FunctionRecord}
    (body : ∀ fr, (change fr).module = fr.module ∧ (change fr).signature = fr.signature ∧
      (change fr).args = fr.args ∧ fr.blocks.Sublist (change fr).blocks) (r : ValueRecord) :
    (match r.kind with
      | .function fr => { r with kind := .function (change fr) }
      | _ => r : ValueRecord).type = r.type ∧
    r.kind.Becomes (match r.kind with
      | .function fr => { r with kind := .function (change fr) }
      | _ => r : ValueRecord).kind := by
  cases kind : r.kind with
  | function fr =>
    obtain ⟨module, signature, args, blocks⟩ := body fr
    exact ⟨rfl, .function module signature args blocks⟩
  | _ => exact ⟨rfl, by simpa only [kind] using .same _⟩

theorem initializer?_of_function {change : FunctionRecord → FunctionRecord} (r : ValueRecord) :
    (match r.kind with
      | .function fr => { r with kind := .function (change fr) }
      | _ => r : ValueRecord).kind.initializer? = r.kind.initializer? := by
  cases kind : r.kind with
  | function fr => rfl
  | _ => simp [kind]

theorem kind_of_stored {g : GlobalRef} {gr : GlobalRecord} (known : ctx.global g = .ok gr)
    {r : ValueRecord} (stored : ctx.values[g.value.index]? = some r) : r.kind = .global gr := by
  obtain ⟨value, read, kind⟩ := global_eq_ok.mp known
  obtain rfl : value = r := Option.some.inj ((value_eq_ok.mp read).2.1.symm.trans stored)
  exact kind

theorem kept_of_initializer {g : GlobalRef} {gr : GlobalRecord} (known : ctx.global g = .ok gr)
    (initializer : Option ConstantRef) :
    ∀ r, ctx.values[g.value.index]? = some r →
      ({ r with kind := .global { gr with initializer } } : ValueRecord).type = r.type ∧
        r.kind.Becomes (.global { gr with initializer }) :=
  fun _ stored => ⟨rfl, kind_of_stored known stored ▸ .global rfl rfl⟩

/-- A value that was added last is well made, and every other one stays. -/
theorem value_of_added {v : ValueRef} {r' made : ValueRecord} (id : ctx'.id = ctx.id)
    (wellMade : ctx'.WellMade ⟨ctx.id, ctx.values.size⟩ made)
    (stored : ∀ i : Nat, ctx'.values[i]? =
      if i = ctx.values.size then some made else ctx.values[i]?)
    (read' : ctx'.value v = .ok r') :
    ctx.Stays v r' ∨ ((∀ r, ctx.value v ≠ .ok r) ∧ ctx'.WellMade v r') := by
  by_cases last : v.index = ctx.values.size
  · obtain ⟨owner, stored', _⟩ := value_eq_ok.mp read'
    rw [stored, if_pos last] at stored'
    obtain rfl := Option.some.inj stored'
    have self : v = ⟨ctx.id, ctx.values.size⟩ := by
      rw [← last, ← id, ← owner]
    exact .inr ⟨fun r read => value_next_ne_ok (self ▸ read), self ▸ wellMade⟩
  · exact .inl (stays_of_stored id read' ((stored v.index).trans (if_neg last)))

theorem value_of_addedFunction {type result : TypeRef} {params : List TypeRef} {variadic : Bool}
    {signature : FunctionTypeRef} {linkage : Linkage} {m : ModuleRef} {args : List ArgumentRef}
    {filled : Context} {v : ValueRef} {r' : ValueRecord}
    (pointed : ctx.shape type = .ok (.pointer signature.type .generic))
    (signed : ctx.shape signature.type = .ok (.function result params variadic))
    (adds : (ctx.allocValue
      { type, kind := .function { module := m, signature, linkage } }).2.AddsArguments
        ⟨⟨ctx.id, ctx.values.size⟩⟩ args filled)
    (row : args.length = params.length ∧ ∀ (k : Nat) a, args[k]? = some a →
      a = ⟨⟨ctx.id, ctx.values.size + 1 + k⟩⟩ ∧ ∃ type, params[k]? = some type ∧
        filled.values[ctx.values.size + 1 + k]? =
          some { type, kind := .argument ⟨⟨⟨ctx.id, ctx.values.size⟩⟩, k⟩ })
    (read' : (ctx.addFunction filled m args).value v = .ok r') :
    ctx.Stays v r' ∨
      ((∀ r, ctx.value v ≠ .ok r) ∧ (ctx.addFunction filled m args).WellMade v r') := by
  have growth := addFunction_grows adds
  obtain ⟨owner, stored, live⟩ := value_eq_ok.mp read'
  have new (beyond : ctx.values.size ≤ v.index) (r : ValueRecord) : ctx.value v ≠ .ok r := by
    intro read
    have inside := (Array.getElem?_eq_some_iff.mp (value_eq_ok.mp read).2.1).1
    omega
  by_cases old : v.index < ctx.values.size
  · exact .inl (stays_of_stored growth.id read' ((values_addFunction adds _).trans (if_pos old)))
  · refine .inr ⟨new (by omega), ?_⟩
    rw [values_addFunction adds, if_neg old] at stored
    split at stored
    · rename_i here
      obtain rfl := Option.some.inj stored
      have self : v = ⟨ctx.id, ctx.values.size⟩ := by rw [← here, ← growth.id, ← owner]
      refine ⟨growth.shape pointed, fun fr kind => ?_⟩
      obtain rfl := ValueKind.function.inj kind
      refine ⟨result, params, variadic, growth.shape signed, row.1, fun k a place => ?_⟩
      obtain ⟨rfl, type', param, held⟩ := row.2 k a place
      refine ⟨{ type := type', kind := .argument ⟨⟨⟨ctx.id, ctx.values.size⟩⟩, k⟩ },
        value_eq_ok.mpr ⟨growth.id.symm, ?_, by simp⟩, param, by rw [self]⟩
      have beyond : ¬ctx.values.size + 1 + k < ctx.values.size := by omega
      have apart : ctx.values.size + 1 + k ≠ ctx.values.size := by omega
      exact (values_addFunction adds _).trans ((if_neg beyond).trans ((if_neg apart).trans held))
    · rename_i notFirst
      obtain ⟨_, _, argument, kind, _⟩ := adds.fresh v.index r' (by
        change (ctx.values.push _).size ≤ _
        rw [Array.size_push]
        omega) stored
      exact ⟨by rw [kind]; trivial, fun fr same => by rw [kind] at same; cases same⟩

def KeepsInitializer (ctx : Context) (g : GlobalRef) (gr' : GlobalRecord) : Prop :=
  ∃ gr, ctx.global g = .ok gr ∧ gr.valueType = gr'.valueType ∧ gr.initializer = gr'.initializer

theorem keepsInitializer_of_stored {g : GlobalRef} {gr' : GlobalRecord} (id : ctx'.id = ctx.id)
    (read' : ctx'.global g = .ok gr')
    (same : ctx'.values[g.value.index]? = ctx.values[g.value.index]?) :
    ctx.KeepsInitializer g gr' := by
  obtain ⟨r', held', kind⟩ := global_eq_ok.mp read'
  obtain ⟨owner, stored, live⟩ := value_eq_ok.mp held'
  exact ⟨gr', global_eq_ok.mpr
    ⟨r', value_eq_ok.mpr ⟨owner.trans id, same ▸ stored, live⟩, kind⟩, rfl, rfl⟩

theorem keepsInitializer_of_revised {u : ValueRef} {f : ValueRecord → ValueRecord} {g : GlobalRef}
    {gr' : GlobalRecord}
    (kept : ∀ r, ctx.values[u.index]? = some r → (f r).type = r.type ∧ r.kind.Becomes (f r).kind)
    (same : ∀ r, ctx.values[u.index]? = some r → (f r).kind.initializer? = r.kind.initializer?)
    (read' : (ctx.modifyValue u f).global g = .ok gr') : ctx.KeepsInitializer g gr' := by
  obtain ⟨r', held', kind'⟩ := global_eq_ok.mp read'
  obtain ⟨owner, stored, live⟩ := value_eq_ok.mp held'
  rw [values_modifyValue] at stored
  split at stored
  · rename_i here
    obtain ⟨r, old, rfl⟩ := Option.map_eq_some_iff.mp stored
    have step := (kept r (here ▸ old)).2
    have initializer := same r (here ▸ old)
    rw [kind'] at step initializer
    obtain ⟨gr, kind, _, valueType⟩ := step.to_global
    rw [kind] at initializer
    have alive : r.kind ≠ .erased := by simp [kind]
    exact ⟨gr, global_eq_ok.mpr ⟨r, value_eq_ok.mpr ⟨owner, old, alive⟩, kind⟩, valueType.symm,
      initializer.symm⟩
  · exact ⟨gr', global_eq_ok.mpr ⟨r', value_eq_ok.mpr ⟨owner, stored, live⟩, kind'⟩, rfl, rfl⟩

theorem global_of_added {g : GlobalRef} {gr' : GlobalRecord} {made : ValueRecord}
    (id : ctx'.id = ctx.id) (stored : ∀ i : Nat, ctx'.values[i]? =
      if i = ctx.values.size then some made else ctx.values[i]?)
    (read' : ctx'.global g = .ok gr') : ctx.KeepsInitializer g gr' ∨ made.kind = .global gr' := by
  by_cases last : g.value.index = ctx.values.size
  · obtain ⟨r', held', kind⟩ := global_eq_ok.mp read'
    have stored' := (value_eq_ok.mp held').2.1
    rw [stored, if_pos last] at stored'
    obtain rfl := Option.some.inj stored'
    exact .inr kind
  · exact .inl (keepsInitializer_of_stored id read' ((stored _).trans (if_neg last)))

namespace Elementary

theorem grows (e : ctx.Elementary ctx') : ctx.Grows ctx' := by
  cases e with
  | type => exact addType_grows _
  | constant => exact addConstant_grows
  | module name => exact pushModule_grows name
  | global => exact addGlobal_grows
  | function _ _ adds => exact addFunction_grows adds
  | block name => exact pushBlock_grows name
  | place read loose known => exact (placeBlock_places read loose known).toGrows
  | instruction opened =>
    obtain ⟨br, read⟩ := block_of_terminator? opened
    exact (addInstruction_appends read).toGrows
  | revise kept => exact modifyValue_grows kept
  | initializer known => exact modifyValue_grows (kept_of_initializer known _)
  | @blockName b br read name =>
    obtain ⟨_, stored, alive⟩ := block_eq_ok.mp read
    refine modifyBlock_grows fun r same => ?_
    obtain rfl : br = r := Option.some.inj (stored.symm.trans same)
    exact ⟨rfl, List.prefix_rfl, fun _ h => h, fun erased => by simp [alive] at erased⟩
  | moduleNames m names => exact modifyModule_grows fun _ _ => ⟨rfl, .refl _, List.prefix_rfl⟩

/-- A value stays, or it is new and well made. -/
theorem value_cases (e : ctx.Elementary ctx') {v : ValueRef} {r' : ValueRecord}
    (read' : ctx'.value v = .ok r') :
    ctx.Stays v r' ∨ ((∀ r, ctx.value v ≠ .ok r) ∧ ctx'.WellMade v r') := by
  have growth := e.grows
  cases e with
  | type | module | block | blockName | moduleNames => exact .inl (stays_of_stored rfl read' rfl)
  | @constant key record fresh content suits =>
    refine value_of_added rfl ⟨suits.grow growth, fun fr kind => ?_⟩ (values_allocValue record) read'
    rw [kind] at content
    cases content
  | @global type g position pointed =>
    have suits : (ctx.addGlobal type g position).Suits type (.global g) :=
      ⟨g.space, growth.shape pointed⟩
    exact value_of_added rfl ⟨suits, fun fr kind => by cases kind⟩ values_addGlobal read'
  | function pointed signed adds row => exact value_of_addedFunction pointed signed adds row read'
  | @instruction b type operation =>
    have suits : (ctx.addInstruction b type operation).Suits type (.instruction ⟨b, operation⟩) :=
      trivial
    exact value_of_added rfl ⟨suits, fun fr kind => by cases kind⟩ values_addInstruction read'
  | revise kept => exact .inl (stays_of_revised kept read')
  | initializer known => exact .inl (stays_of_revised (kept_of_initializer known _) read')
  | @place b br f fr position read loose known =>
    rw [show (ctx.placeBlock b f position).value v =
      (ctx.modifyFunction f (·.withBlock b position)).value v from value_congr rfl rfl v] at read'
    refine .inl (stays_of_revised (fun r _ => kept_of_function (fun fr => ?_) r) read')
    exact ⟨rfl, rfl, rfl, List.sublist_insertIdx _ _ _⟩

/-- A block lists what it listed, or it is new and empty, or it was open and got one instruction at its
end. -/
theorem block_cases (e : ctx.Elementary ctx') {b : BlockRef} {r' : BlockRecord}
    (read' : ctx'.block b = .ok r') :
    (∃ r, ctx.block b = .ok r ∧ r'.instructions = r.instructions) ∨ r'.instructions = [] ∨
      ∃ r i, ctx.block b = .ok r ∧ ctx.terminator? b = .ok none ∧
        (∃ operation, ctx'.operation i = .ok operation) ∧
          r'.instructions = r.instructions ++ [i] := by
  have kept (same : ctx'.blocks = ctx.blocks) :
      ∃ r, ctx.block b = .ok r ∧ r'.instructions = r.instructions :=
    ⟨r', (block_congr e.grows.id same b).symm.trans read', rfl⟩
  cases e with
  | type | constant | module | global | revise | initializer | moduleNames => exact .inl (kept rfl)
  | function _ _ adds =>
    obtain ⟨_, _, _, _, blocks, _⟩ := rest_addFunction adds
    exact .inl (kept blocks)
  | block name =>
    obtain ⟨owner, stored, live⟩ := block_eq_ok.mp read'
    rw [Array.getElem?_push] at stored
    split at stored
    · obtain rfl := Option.some.inj stored
      exact .inr (.inl rfl)
    · exact .inl ⟨r', block_eq_ok.mpr ⟨owner, stored, live⟩, rfl⟩
  | @place c br f fr position read loose known =>
    have read'' : ((ctx.modifyFunction f (·.withBlock c position)).modifyBlock c
      ({ · with parent := some f })).block b = .ok r' := read'
    rcases (block_modifyBlock (show (ctx.modifyFunction f _).block c = .ok br from read)
      (block_eq_ok.mp read).2.2).mp read'' with ⟨rfl, rfl⟩ | ⟨_, old⟩
    · exact .inl ⟨br, read, rfl⟩
    · exact .inl ⟨r', old, rfl⟩
  | @instruction c type operation opened =>
    obtain ⟨br, read⟩ := block_of_terminator? opened
    have read'' : ((ctx.allocValue { type, kind := .instruction ⟨c, operation⟩ }).2.modifyBlock c
      fun r => { r with instructions := r.instructions ++ [⟨⟨ctx.id, ctx.values.size⟩⟩] }).block b =
        .ok r' := read'
    rcases (block_modifyBlock ((block_congr rfl rfl c).trans read)
      (block_eq_ok.mp read).2.2).mp read'' with ⟨rfl, rfl⟩ | ⟨_, old⟩
    · refine .inr (.inr ⟨br, ⟨⟨ctx.id, ctx.values.size⟩⟩, read, opened, ⟨operation, ?_⟩, rfl⟩)
      exact operation_eq_ok.mpr ⟨_, instruction_addInstruction.mpr (.inr ⟨rfl, rfl⟩), rfl⟩
    · exact .inl ⟨r', old, rfl⟩
  | @blockName c br read name =>
    rcases (block_modifyBlock read (block_eq_ok.mp read).2.2).mp read' with ⟨rfl, rfl⟩ | ⟨_, old⟩
    · exact .inl ⟨br, read, rfl⟩
    · exact .inl ⟨r', old, rfl⟩

theorem global_cases (e : ctx.Elementary ctx') {g : GlobalRef} {gr' : GlobalRecord}
    (read' : ctx'.global g = .ok gr') : ctx.KeepsInitializer g gr' ∨
      ∀ init, gr'.initializer = some init → ctx.valueType init.value = .ok gr'.valueType := by
  have growth := e.grows
  cases e with
  | type | module | block | blockName | moduleNames =>
    exact .inl (keepsInitializer_of_stored rfl read' rfl)
  | @constant key record fresh content =>
    rcases global_of_added growth.id (values_allocValue record) read' with kept | kind
    · exact .inl kept
    · rw [kind] at content
      cases content
  | global pointed initialized =>
    rcases global_of_added growth.id values_addGlobal read' with kept | kind
    · exact .inl kept
    · obtain rfl := ValueKind.global.inj kind
      exact .inr initialized
  | function _ _ adds =>
    obtain ⟨r', held, kind⟩ := global_eq_ok.mp read'
    obtain ⟨_, stored, _⟩ := value_eq_ok.mp held
    rw [values_addFunction adds] at stored
    split at stored
    · rename_i old
      have same := (values_addFunction adds _).trans (if_pos old)
      exact .inl (keepsInitializer_of_stored growth.id read' same)
    · rename_i new
      split at stored
      · obtain rfl := Option.some.inj stored
        cases kind
      · rename_i notFirst
        obtain ⟨_, _, argument, kind', _⟩ := adds.fresh g.value.index r' (by
          change (ctx.values.push _).size ≤ _
          rw [Array.size_push]
          omega) stored
        rw [kind] at kind'
        cases kind'
  | @instruction b type operation =>
    rcases global_of_added growth.id values_addInstruction read' with kept | kind
    · exact .inl kept
    · cases kind
  | revise kept same => exact .inl (keepsInitializer_of_revised kept same read')
  | @initializer h gr initializer known initialized =>
    obtain ⟨r, held, kind⟩ := global_eq_ok.mp known
    obtain ⟨r', held', kind'⟩ := global_eq_ok.mp read'
    rcases (value_modifyValue held (by simp)).mp held' with ⟨_, rfl⟩ | ⟨_, old⟩
    · obtain rfl := ValueKind.global.inj kind'
      exact .inr initialized
    · exact .inl ⟨gr', global_eq_ok.mpr ⟨r', old, kind'⟩, rfl, rfl⟩
  | @place b br f fr position read loose known =>
    have read'' : (ctx.modifyFunction f (·.withBlock b position)).global g = .ok gr' := read'
    refine .inl (keepsInitializer_of_revised (fun r _ => kept_of_function (fun fr => ?_) r)
      (fun r _ => initializer?_of_function r) read'')
    exact ⟨rfl, rfl, rfl, List.sublist_insertIdx _ _ _⟩

end Elementary

theorem Builds.grows (builds : ctx.Builds ctx') : ctx.Grows ctx' := by
  induction builds with
  | refl => exact .refl ctx
  | tail _ step ih => exact ih.trans step.grows

end Context

namespace Build

theorem allocArguments_row {ctx ctx' : Context} {f : FunctionRef} {position : Nat}
    {types : List TypeRef} {args : List ArgumentRef} (known : ∀ t ∈ types, ctx.HasType t)
    (run : (allocArguments f position types ctx).result = .ok (args, ctx')) :
    args.length = types.length ∧ ∀ (k : Nat) a, args[k]? = some a →
      a = ⟨⟨ctx.id, ctx.values.size + k⟩⟩ ∧ ∃ type, types[k]? = some type ∧
        ctx'.values[ctx.values.size + k]? = some { type, kind := .argument ⟨f, position + k⟩ } := by
  induction types generalizing ctx position args with
  | nil =>
    simp only [allocArguments, pure_eq_ok] at run
    obtain ⟨rfl, _⟩ := run
    simp
  | cons type rest ih =>
    simp only [allocArguments, bind_eq_ok, pure_eq_ok, allocValue_eq_ok] at run
    obtain ⟨v, mid, ⟨_, allocated⟩, others, last, run, rfl, rfl⟩ := run
    obtain ⟨rfl, rfl⟩ := Prod.mk.inj allocated
    rw [List.forall_mem_cons] at known
    have known' : ∀ t ∈ rest, (ctx.allocValue { type, kind := .argument ⟨f, position⟩ }).2.HasType t :=
      fun t mem => (Context.allocValue_grows _).hasType (known.2 t mem)
    obtain ⟨count, each⟩ := ih known' run
    have size : (ctx.allocValue { type, kind := .argument ⟨f, position⟩ }).2.values.size =
      ctx.values.size + 1 := Array.size_push _
    refine ⟨by simp [count], fun k a place => ?_⟩
    cases k with
    | zero =>
      obtain rfl := Option.some.inj place
      have old := (allocArguments_spec known' run).old ctx.values.size (by omega)
      exact ⟨rfl, type, rfl, by rw [Nat.add_zero, old, Context.values_allocValue, if_pos rfl]; rfl⟩
    | succ k =>
      obtain ⟨rfl, type', place', stored⟩ := each k a place
      rw [size] at stored
      rw [size, show ctx.values.size + 1 + k = ctx.values.size + (k + 1) by omega]
      refine ⟨rfl, type', place', ?_⟩
      rw [show ctx.values.size + (k + 1) = ctx.values.size + 1 + k by omega, stored,
        show position + 1 + k = position + (k + 1) by omega]

end Build
end ModuleIR
