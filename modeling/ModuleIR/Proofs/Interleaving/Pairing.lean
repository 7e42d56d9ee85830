import Mathlib.Data.List.Forall2
import ModuleIR.Proofs.Arena.WellFormed

set_option autoImplicit false

/-!
# Contexts that correspond

The same operations, made in two contexts, give entities at different places of the arenas. A pairing
says which entity of the one context stands for which of the other, one for one. It carries over to
what records hold: two records correspond when they agree on everything but the handles in them, and
those are paired. A pairing that says more leaves corresponding what corresponds already.
-/
namespace ModuleIR

open List (Forall₂)

/-- What a handle names, whatever is known of it. -/
inductive Entity where
  | type (type : TypeRef)
  | value (value : ValueRef)
  | block (block : BlockRef)
  | module (module : ModuleRef)

def Entity.kind : Entity → EntityKind
  | type _ => .type
  | value _ => .value
  | block _ => .block
  | module _ => .module

/-- Which entities of two contexts stand for each other. -/
structure Pairing where
  pairs : Entity → Entity → Prop
  unique : Relator.BiUnique pairs
  kinds : ∀ e e', pairs e e' → e'.kind = e.kind

namespace Pairing

instance : LE Pairing := ⟨fun ρ ρ' => ∀ e e', ρ.pairs e e' → ρ'.pairs e e'⟩

theorem le_refl (ρ : Pairing) : ρ ≤ ρ := fun _ _ paired => paired

theorem le_trans {ρ ρ' ρ'' : Pairing} (sub : ρ ≤ ρ') (sub' : ρ' ≤ ρ'') : ρ ≤ ρ'' :=
  fun h h' paired => sub' h h' (sub h h' paired)

def empty : Pairing :=
  ⟨fun _ _ => False, ⟨fun _ _ _ h => h.elim, fun _ _ _ h => h.elim⟩, fun _ _ h => h.elim⟩

def add (ρ : Pairing) (e e' : Entity) (same : e'.kind = e.kind) (fresh : ∀ k, ¬ρ.pairs e k)
    (fresh' : ∀ k, ¬ρ.pairs k e') : Pairing where
  pairs a b := ρ.pairs a b ∨ (a = e ∧ b = e')
  unique := by
    constructor
    · rintro a a' b (old | ⟨new, last⟩) (old' | ⟨new', last'⟩)
      · exact ρ.unique.1 old old'
      · exact (fresh' a (last' ▸ old)).elim
      · exact (fresh' a' (last ▸ old')).elim
      · exact new.trans new'.symm
    · rintro a b b' (old | ⟨new, last⟩) (old' | ⟨new', last'⟩)
      · exact ρ.unique.2 old old'
      · exact (fresh b (new' ▸ old)).elim
      · exact (fresh b' (new ▸ old')).elim
      · exact last.trans last'.symm
  kinds := by
    rintro a b (old | ⟨rfl, rfl⟩)
    · exact ρ.kinds a b old
    · exact same

section Add

variable {ρ : Pairing} {e e' : Entity} (same : e'.kind = e.kind) (fresh : ∀ k, ¬ρ.pairs e k)
  (fresh' : ∀ k, ¬ρ.pairs k e')

theorem le_add : ρ ≤ ρ.add e e' same fresh fresh' := fun _ _ paired => .inl paired

theorem add_self : (ρ.add e e' same fresh fresh').pairs e e' := .inr ⟨rfl, rfl⟩

end Add

variable (ρ : Pairing)

theorem type_of_pair {e : Entity} {t' : TypeRef} (paired : ρ.pairs e (.type t')) :
    ∃ t, e = .type t := by
  have kinds := ρ.kinds e _ paired
  cases e with
  | type t => exact ⟨t, rfl⟩
  | value | block | module => cases kinds

theorem value_of_pair {e : Entity} {v' : ValueRef} (paired : ρ.pairs e (.value v')) :
    ∃ v, e = .value v := by
  have kinds := ρ.kinds e _ paired
  cases e with
  | value v => exact ⟨v, rfl⟩
  | type | block | module => cases kinds

omit ρ in
theorem exists_of_mem {α β : Type} {R : α → β → Prop} {as : List α} {bs : List β} {b : β}
    (listed : Forall₂ R as bs) (mem : b ∈ bs) : ∃ a ∈ as, R a b := by
  induction listed with
  | nil => cases mem
  | cons head _ ih =>
    rcases List.mem_cons.mp mem with rfl | mem
    · exact ⟨_, List.mem_cons_self, head⟩
    · obtain ⟨a, inside, related⟩ := ih mem
      exact ⟨a, List.mem_cons_of_mem _ inside, related⟩

/-! ### Handles -/

def Types (t t' : TypeRef) : Prop := ρ.pairs (.type t) (.type t')

def Values (v v' : ValueRef) : Prop := ρ.pairs (.value v) (.value v')

def Blocks (b b' : BlockRef) : Prop := ρ.pairs (.block b) (.block b')

def Modules (m m' : ModuleRef) : Prop := ρ.pairs (.module m) (.module m')

def Through {α : Type} (value : α → ValueRef) (a a' : α) : Prop := ρ.Values (value a) (value a')

/-- Handles that are known by the same view. -/
inductive Handles : Handle → Handle → Prop
  | type (view : TypeView) {t t' : TypeRef} (paired : ρ.Types t t') :
      Handles (.type view t) (.type view t')
  | value (view : ValueView) {v v' : ValueRef} (paired : ρ.Values v v') :
      Handles (.value view v) (.value view v')
  | block {b b' : BlockRef} (paired : ρ.Blocks b b') : Handles (.block b) (.block b')
  | module {m m' : ModuleRef} (paired : ρ.Modules m m') : Handles (.module m) (.module m')

/-! ### What records hold -/

inductive Shapes : Shape → Shape → Prop
  | void : Shapes .void .void
  | label : Shapes .label .label
  | integer (bits : Nat) : Shapes (.integer bits) (.integer bits)
  | pointer {t t' : TypeRef} (pointee : ρ.Types t t') (space : AddressSpace) :
      Shapes (.pointer t space) (.pointer t' space)
  | array {t t' : TypeRef} (element : ρ.Types t t') (length : Nat) :
      Shapes (.array t length) (.array t' length)
  | function {t t' : TypeRef} {ts ts' : List TypeRef} (result : ρ.Types t t')
      (params : Forall₂ ρ.Types ts ts') (variadic : Bool) :
      Shapes (.function t ts variadic) (.function t' ts' variadic)

inductive Operations : Operation → Operation → Prop
  | call {c c' : ValueRef} {us us' : List ValueRef} (callee : ρ.Values c c')
      (args : Forall₂ ρ.Values us us') (convention : CallingConv) :
      Operations (.call c us convention) (.call c' us' convention)
  | ret {u u' : Option ValueRef} (value : Option.Rel ρ.Values u u') :
      Operations (.ret u) (.ret u')
  | br {b b' : BlockRef} (target : ρ.Blocks b b') : Operations (.br b) (.br b')
  | condBr {u u' : ValueRef} {b b' d d' : BlockRef} (cond : ρ.Values u u') (ifTrue : ρ.Blocks b b')
      (ifFalse : ρ.Blocks d d') : Operations (.condBr u b d) (.condBr u' b' d')

inductive Symbols : Symbol → Symbol → Prop
  | value {v v' : ValueRef} (paired : ρ.Values v v') : Symbols (.value v) (.value v')
  | block {b b' : BlockRef} (paired : ρ.Blocks b b') : Symbols (.block b) (.block b')

structure Tables (t t' : NameTable) : Prop where
  separator : t'.separator = t.separator
  lastSuffix : t'.lastSuffix = t.lastSuffix
  entries : Forall₂ (fun entry entry' => entry'.1 = entry.1 ∧ ρ.Symbols entry.2 entry'.2)
    t.bindings.entries t'.bindings.entries

structure ElementPtrs (e e' : ElementPtrRecord) : Prop where
  sourceType : ρ.Types e.sourceType e'.sourceType
  base : ρ.Values e.base e'.base
  indices : Forall₂ ρ.Values e.indices e'.indices
  inBounds : e'.inBounds = e.inBounds

structure Globals (g g' : GlobalRecord) : Prop where
  module : ρ.Modules g.module g'.module
  valueType : ρ.Types g.valueType g'.valueType
  isConstant : g'.isConstant = g.isConstant
  linkage : g'.linkage = g.linkage
  initializer : Option.Rel (ρ.Through ConstantRef.value) g.initializer g'.initializer
  threadLocal : g'.threadLocal = g.threadLocal
  space : g'.space = g.space
  externallyInitialized : g'.externallyInitialized = g.externallyInitialized

structure Functions (f f' : FunctionRecord) : Prop where
  module : ρ.Modules f.module f'.module
  signature : ρ.Types f.signature.type f'.signature.type
  linkage : f'.linkage = f.linkage
  convention : f'.convention = f.convention
  args : Forall₂ (ρ.Through ArgumentRef.value) f.args f'.args
  blocks : Forall₂ ρ.Blocks f.blocks f'.blocks
  names : ρ.Tables f.names f'.names

inductive Kinds : ValueKind → ValueKind → Prop
  | int (n : WideInt) : Kinds (.int n) (.int n)
  | bytes (content : List UInt8) : Kinds (.bytes content) (.bytes content)
  | elementPtr {e e' : ElementPtrRecord} (record : ρ.ElementPtrs e e') :
      Kinds (.elementPtr e) (.elementPtr e')
  | global {g g' : GlobalRecord} (record : ρ.Globals g g') : Kinds (.global g) (.global g')
  | function {f f' : FunctionRecord} (record : ρ.Functions f f') :
      Kinds (.function f) (.function f')
  | argument {f f' : FunctionRef} (parent : ρ.Through FunctionRef.value f f') (position : Nat) :
      Kinds (.argument ⟨f, position⟩) (.argument ⟨f', position⟩)
  | instruction {b b' : BlockRef} {o o' : Operation} (parent : ρ.Blocks b b')
      (operation : ρ.Operations o o') :
      Kinds (.instruction ⟨b, o⟩) (.instruction ⟨b', o'⟩)

structure ValueRecords (r r' : ValueRecord) : Prop where
  type : ρ.Types r.type r'.type
  name : r'.name = r.name
  kind : ρ.Kinds r.kind r'.kind

structure BlockRecords (r r' : BlockRecord) : Prop where
  name : r'.name = r.name
  parent : Option.Rel (ρ.Through FunctionRef.value) r.parent r'.parent
  instructions : Forall₂ (ρ.Through InstructionRef.value) r.instructions r'.instructions

structure ModuleRecords (r r' : ModuleRecord) : Prop where
  name : r'.name = r.name
  globals : Forall₂ (ρ.Through GlobalRef.value) r.globals r'.globals
  functions : Forall₂ (ρ.Through FunctionRef.value) r.functions r'.functions
  names : ρ.Tables r.names r'.names

inductive Keys : ConstantKey → ConstantKey → Prop
  | int (n : WideInt) : Keys (.int n) (.int n)
  | bytes (content : List UInt8) : Keys (.bytes content) (.bytes content)
  | elementPtr {u u' : ValueRef} {us us' : List ValueRef} (base : ρ.Values u u')
      (indices : Forall₂ ρ.Values us us') (inBounds : Bool) :
      Keys (.elementPtr u us inBounds) (.elementPtr u' us' inBounds)

inductive Anchors : Anchor → Anchor → Prop
  | free : Anchors .free .free
  | module {m m' : ModuleRef} (paired : ρ.Modules m m') : Anchors (.module m) (.module m')
  | function {f f' : FunctionRef} (paired : ρ.Through FunctionRef.value f f') :
      Anchors (.function f) (.function f')
  | detached : Anchors .detached .detached

/-! ### One for one -/

variable {ρ}

theorem types_unique : Relator.BiUnique ρ.Types :=
  ⟨fun _ _ _ h h' => Entity.type.inj (ρ.unique.1 h h'),
    fun _ _ _ h h' => Entity.type.inj (ρ.unique.2 h h')⟩

theorem values_unique : Relator.BiUnique ρ.Values :=
  ⟨fun _ _ _ h h' => Entity.value.inj (ρ.unique.1 h h'),
    fun _ _ _ h h' => Entity.value.inj (ρ.unique.2 h h')⟩

theorem blocks_unique : Relator.BiUnique ρ.Blocks :=
  ⟨fun _ _ _ h h' => Entity.block.inj (ρ.unique.1 h h'),
    fun _ _ _ h h' => Entity.block.inj (ρ.unique.2 h h')⟩

theorem modules_unique : Relator.BiUnique ρ.Modules :=
  ⟨fun _ _ _ h h' => Entity.module.inj (ρ.unique.1 h h'),
    fun _ _ _ h h' => Entity.module.inj (ρ.unique.2 h h')⟩

theorem through_unique {α : Type} {value : α → ValueRef} (injective : Function.Injective value) :
    Relator.BiUnique (ρ.Through value) :=
  ⟨fun _ _ _ h h' => injective (values_unique.1 h h'),
    fun _ _ _ h h' => injective (values_unique.2 h h')⟩

theorem functionRefs_unique : Relator.BiUnique (ρ.Through FunctionRef.value) :=
  through_unique fun ⟨_⟩ ⟨_⟩ same => congrArg FunctionRef.mk same

theorem globalRefs_unique : Relator.BiUnique (ρ.Through GlobalRef.value) :=
  through_unique fun ⟨_⟩ ⟨_⟩ same => congrArg GlobalRef.mk same

theorem eq_iff {α β : Type} {R : α → β → Prop} (unique : Relator.BiUnique R) {a b : α} {a' b' : β}
    (h : R a a') (h' : R b b') : a' = b' ↔ a = b := by
  constructor
  · rintro rfl
    exact unique.1 h h'
  · rintro rfl
    exact unique.2 h h'

theorem option_unique {α β : Type} {R : α → β → Prop} (unique : Relator.BiUnique R) :
    Relator.BiUnique (Option.Rel R) := by
  constructor
  · rintro a b c (h | _) (h' | _)
    · exact congrArg some (unique.1 h h')
    · rfl
  · rintro a b c (h | _) (h' | _)
    · exact congrArg some (unique.2 h h')
    · rfl

theorem symbols_unique : Relator.BiUnique ρ.Symbols := by
  constructor
  · rintro a b c (h | h) (h' | h')
    · exact congrArg Symbol.value (values_unique.1 h h')
    · exact congrArg Symbol.block (blocks_unique.1 h h')
  · rintro a b c (h | h) (h' | h')
    · exact congrArg Symbol.value (values_unique.2 h h')
    · exact congrArg Symbol.block (blocks_unique.2 h h')

theorem shapes_unique : Relator.BiUnique ρ.Shapes := by
  constructor
  · intro a b c h h'
    cases h with
    | pointer pointee space =>
      cases h' with | pointer pointee' => rw [types_unique.1 pointee pointee']
    | array element length => cases h' with | array element' => rw [types_unique.1 element element']
    | function result params variadic =>
      cases h' with | function result' params' =>
      rw [types_unique.1 result result', types_unique.1.forall₂ params params']
    | _ => cases h'; rfl
  · intro a b c h h'
    cases h with
    | pointer pointee space =>
      cases h' with | pointer pointee' => rw [types_unique.2 pointee pointee']
    | array element length => cases h' with | array element' => rw [types_unique.2 element element']
    | function result params variadic =>
      cases h' with | function result' params' =>
      rw [types_unique.2 result result', types_unique.2.forall₂ params params']
    | _ => cases h'; rfl

theorem keys_unique : Relator.BiUnique ρ.Keys := by
  constructor
  · intro a b c h h'
    cases h with
    | elementPtr base indices inBounds =>
      cases h' with | elementPtr base' indices' =>
      rw [values_unique.1 base base', values_unique.1.forall₂ indices indices']
    | _ => cases h'; rfl
  · intro a b c h h'
    cases h with
    | elementPtr base indices inBounds =>
      cases h' with | elementPtr base' indices' =>
      rw [values_unique.2 base base', values_unique.2.forall₂ indices indices']
    | _ => cases h'; rfl

theorem Kinds.key? {kind kind' : ValueKind} (h : ρ.Kinds kind kind') :
    Option.Rel ρ.Keys kind.key? kind'.key? := by
  cases h with
  | int n => exact .some (.int n)
  | bytes content => exact .some (.bytes content)
  | elementPtr record =>
    rw [ValueKind.key?, ValueKind.key?, record.inBounds]
    exact .some (.elementPtr record.base record.indices _)
  | _ => exact .none

/-- Of what corresponds, one is tabled under a key exactly when the other is under its counterpart. -/
theorem Kinds.key?_eq_iff {kind kind' : ValueKind} {key key' : ConstantKey}
    (h : ρ.Kinds kind kind') (keys : ρ.Keys key key') :
    kind'.key? = some key' ↔ kind.key? = some key :=
  eq_iff (option_unique keys_unique) h.key? (.some keys)

/-! ### More pairs -/

section Mono

variable {ρ' : Pairing} (sub : ρ ≤ ρ')
include sub

theorem Types.mono {t t' : TypeRef} (h : ρ.Types t t') : ρ'.Types t t' := sub _ _ h

theorem Values.mono {v v' : ValueRef} (h : ρ.Values v v') : ρ'.Values v v' := sub _ _ h

theorem Blocks.mono {b b' : BlockRef} (h : ρ.Blocks b b') : ρ'.Blocks b b' := sub _ _ h

theorem Modules.mono {m m' : ModuleRef} (h : ρ.Modules m m') : ρ'.Modules m m' := sub _ _ h

theorem Through.mono {α : Type} {value : α → ValueRef} {a a' : α} (h : ρ.Through value a a') :
    ρ'.Through value a a' := sub _ _ h

theorem Handles.mono {h h' : Handle} (same : ρ.Handles h h') : ρ'.Handles h h' := by
  cases same with
  | type view paired => exact .type view (sub _ _ paired)
  | value view paired => exact .value view (sub _ _ paired)
  | block paired => exact .block (sub _ _ paired)
  | module paired => exact .module (sub _ _ paired)

theorem types_mono {ts ts' : List TypeRef} (h : Forall₂ ρ.Types ts ts') : Forall₂ ρ'.Types ts ts' :=
  h.imp fun _ _ => sub _ _

theorem values_mono {vs vs' : List ValueRef} (h : Forall₂ ρ.Values vs vs') :
    Forall₂ ρ'.Values vs vs' :=
  h.imp fun _ _ => sub _ _

theorem blocks_mono {bs bs' : List BlockRef} (h : Forall₂ ρ.Blocks bs bs') :
    Forall₂ ρ'.Blocks bs bs' :=
  h.imp fun _ _ => sub _ _

theorem through_mono {α : Type} {value : α → ValueRef} {as as' : List α}
    (h : Forall₂ (ρ.Through value) as as') : Forall₂ (ρ'.Through value) as as' :=
  h.imp fun _ _ => sub _ _

omit sub in
theorem option_mono {α : Type} {R R' : α → α → Prop} (imp : ∀ a a', R a a' → R' a a')
    {a a' : Option α} (h : Option.Rel R a a') : Option.Rel R' a a' := by
  cases h with
  | some related => exact .some (imp _ _ related)
  | none => exact .none

theorem Shapes.mono {s s' : Shape} (h : ρ.Shapes s s') : ρ'.Shapes s s' := by
  cases h with
  | void => exact .void
  | label => exact .label
  | integer bits => exact .integer bits
  | pointer pointee space => exact .pointer (pointee.mono sub) space
  | array element length => exact .array (element.mono sub) length
  | function result params variadic =>
    exact .function (result.mono sub) (types_mono sub params) variadic

theorem Operations.mono {o o' : Operation} (h : ρ.Operations o o') : ρ'.Operations o o' := by
  cases h with
  | call callee args convention =>
    exact .call (callee.mono sub) (values_mono sub args) convention
  | ret value => exact .ret (option_mono (fun _ _ => sub _ _) value)
  | br target => exact .br (target.mono sub)
  | condBr cond ifTrue ifFalse =>
    exact .condBr (cond.mono sub) (ifTrue.mono sub) (ifFalse.mono sub)

theorem Symbols.mono {s s' : Symbol} (h : ρ.Symbols s s') : ρ'.Symbols s s' := by
  cases h with
  | value paired => exact .value (paired.mono sub)
  | block paired => exact .block (paired.mono sub)

theorem Tables.mono {t t' : NameTable} (h : ρ.Tables t t') : ρ'.Tables t t' :=
  ⟨h.separator, h.lastSuffix, h.entries.imp fun _ _ ⟨name, symbol⟩ => ⟨name, symbol.mono sub⟩⟩

theorem ElementPtrs.mono {e e' : ElementPtrRecord} (h : ρ.ElementPtrs e e') :
    ρ'.ElementPtrs e e' :=
  ⟨h.sourceType.mono sub, h.base.mono sub, values_mono sub h.indices, h.inBounds⟩

theorem Globals.mono {g g' : GlobalRecord} (h : ρ.Globals g g') : ρ'.Globals g g' where
  module := h.module.mono sub
  valueType := h.valueType.mono sub
  isConstant := h.isConstant
  linkage := h.linkage
  initializer := option_mono (fun _ _ => sub _ _) h.initializer
  threadLocal := h.threadLocal
  space := h.space
  externallyInitialized := h.externallyInitialized

theorem Functions.mono {f f' : FunctionRecord} (h : ρ.Functions f f') : ρ'.Functions f f' where
  module := h.module.mono sub
  signature := h.signature.mono sub
  linkage := h.linkage
  convention := h.convention
  args := through_mono sub h.args
  blocks := blocks_mono sub h.blocks
  names := h.names.mono sub

theorem Kinds.mono {k k' : ValueKind} (h : ρ.Kinds k k') : ρ'.Kinds k k' := by
  cases h with
  | int n => exact .int n
  | bytes content => exact .bytes content
  | elementPtr record => exact .elementPtr (record.mono sub)
  | global record => exact .global (record.mono sub)
  | function record => exact .function (record.mono sub)
  | argument parent position => exact .argument (parent.mono sub) position
  | instruction parent operation => exact .instruction (parent.mono sub) (operation.mono sub)

theorem ValueRecords.mono {r r' : ValueRecord} (h : ρ.ValueRecords r r') : ρ'.ValueRecords r r' :=
  ⟨h.type.mono sub, h.name, h.kind.mono sub⟩

theorem BlockRecords.mono {r r' : BlockRecord} (h : ρ.BlockRecords r r') : ρ'.BlockRecords r r' :=
  ⟨h.name, option_mono (fun _ _ => sub _ _) h.parent, through_mono sub h.instructions⟩

theorem ModuleRecords.mono {r r' : ModuleRecord} (h : ρ.ModuleRecords r r') :
    ρ'.ModuleRecords r r' :=
  ⟨h.name, through_mono sub h.globals, through_mono sub h.functions, h.names.mono sub⟩

end Mono

end Pairing
end ModuleIR
