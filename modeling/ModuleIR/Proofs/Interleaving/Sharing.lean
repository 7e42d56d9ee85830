import ModuleIR.Proofs.Arena.Changes
import ModuleIR.Proofs.Interleaving.Tracking
import ModuleIR.Proofs.World.Uniquing

set_option autoImplicit false

/-!
# Two contexts in one

A context that is shared holds what two users build, each of whom could have built it in a context of
his own. The shared context tracks both, and what stands for entities of both is a type, an integer
or a byte array. A change to what only one of them has leaves the other context tracked, and an entry
that is new, or is common, can be taken into a pairing.
-/
namespace ModuleIR

/-- Content that is of no module. -/
def ValueKind.isFree : ValueKind → Bool
  | .int _ | .bytes _ => true
  | _ => false

namespace Context

/-- What several users may have. -/
def Common (ctx : Context) : Entity → Prop
  | .type _ => True
  | .value v => ∃ r, ctx.value v = .ok r ∧ r.kind.isFree = true
  | .block _ | .module _ => False

/-- What has a record of its own, which can be rewritten: no type and no uniqued constant. -/
def Owned (ctx : Context) : Entity → Prop
  | .type _ => False
  | .value v => ∃ r, ctx.value v = .ok r ∧ r.kind.key? = none
  | .block b => ∃ r, ctx.block b = .ok r
  | .module m => ∃ r, ctx.module m = .ok r

def ConstantSound (ctx : Context) (r : ValueRecord) : Prop :=
  match r.kind with
  | .int n => r.name = none ∧ ctx.shape r.type = .ok (.integer n.bits)
  | .bytes content => r.name = none ∧ ∃ byte, ctx.shape byte = .ok (.integer 8) ∧
    ctx.shape r.type = .ok (.array byte content.length)
  | .elementPtr _ => r.name = none
  | _ => True

/-- The tables find exactly what there is, and pointer arithmetic stands behind its base. -/
structure Tabled (ctx : Context) : Prop where
  types : ∀ s t, ctx.typeTable.find? s = some t ↔ ctx.shape t = .ok s
  constants : ∀ key v, ctx.constantTable.find? key = some v ↔
    ∃ r, ctx.value v = .ok r ∧ r.kind.key? = some key
  before : ∀ v r base indices inBounds, ctx.value v = .ok r →
    r.kind.key? = some (.elementPtr base indices inBounds) → base.index < v.index

variable {ctx ctx' : Context}

theorem has_of_value {v : ValueRef} {r : ValueRecord} (read : ctx.value v = .ok r) :
    ctx.Has (.value v) := by
  obtain ⟨owner, stored, _⟩ := value_eq_ok.mp read
  exact ⟨owner, (Array.getElem?_eq_some_iff.mp stored).1⟩

theorem has_of_shape {t : TypeRef} {s : Shape} (read : ctx.shape t = .ok s) :
    ctx.Has (.type t) := by
  obtain ⟨owner, stored⟩ := shape_eq_ok.mp read
  exact ⟨owner, (Array.getElem?_eq_some_iff.mp stored).1⟩

theorem has_of_block {b : BlockRef} {r : BlockRecord} (read : ctx.block b = .ok r) :
    ctx.Has (.block b) := by
  obtain ⟨owner, stored, _⟩ := block_eq_ok.mp read
  exact ⟨owner, (Array.getElem?_eq_some_iff.mp stored).1⟩

theorem has_of_module {m : ModuleRef} {r : ModuleRecord} (read : ctx.module m = .ok r) :
    ctx.Has (.module m) := by
  obtain ⟨owner, stored⟩ := module_eq_ok.mp read
  exact ⟨owner, (Array.getElem?_eq_some_iff.mp stored).1⟩

theorem ConstantSound.mono {r : ValueRecord}
    (shape : ∀ t s, ctx.shape t = .ok s → ctx'.shape t = .ok s) (h : ctx.ConstantSound r) :
    ctx'.ConstantSound r := by
  obtain ⟨type, name, kind⟩ := r
  cases kind with
  | int n => exact ⟨h.1, shape _ _ h.2⟩
  | bytes content =>
    obtain ⟨unnamed, byte, eight, array⟩ := h
    exact ⟨unnamed, byte, shape _ _ eight, shape _ _ array⟩
  | elementPtr e => exact h
  | _ => exact trivial

theorem ConstantSound.own_of_name {r : ValueRecord} {name : String} (h : ctx.ConstantSound r)
    (named : r.name = some name) : r.kind.key? = none := by
  obtain ⟨type, name', kind⟩ := r
  obtain rfl : name' = some name := named
  cases kind with
  | int | bytes => cases h.1
  | elementPtr => cases h
  | _ => rfl

theorem ConstantSound.of_own {r : ValueRecord} (own : r.kind.key? = none) : ctx.ConstantSound r := by
  obtain ⟨type, name, kind⟩ := r
  cases kind with
  | int | bytes | elementPtr => cases own
  | _ => exact trivial

/-! ### Tables -/

theorem WellFormed.toTabled (wf : ctx.WellFormed) (distinct : ctx.Distinct) : ctx.Tabled where
  types := wf.typeTable
  constants key v := by
    rw [Table.find?_eq_some_iff distinct]
    constructor
    · exact wf.constants key v
    · exact fun ⟨r, read, content⟩ => wf.tabled v r key read content
  before v r base indices inBounds read content := by
    cases kind : r.kind with
    | elementPtr e =>
      rw [kind] at content
      cases content
      exact wf.basesBefore v r e read kind
    | _ => rw [kind] at content; cases content

namespace Tabled

variable (tabled : ctx.Tabled)
include tabled

theorem basesBefore : ctx.BasesBefore := fun v r e read kind =>
  tabled.before v r e.base e.indices e.inBounds read (by rw [kind]; rfl)

theorem type_unique {t u : TypeRef} {s : Shape} (read : ctx.shape t = .ok s)
    (read' : ctx.shape u = .ok s) : t = u :=
  Option.some.inj (((tabled.types s t).mpr read).symm.trans ((tabled.types s u).mpr read'))

theorem free_unique {r q : ValueRecord} (sound : ctx.ConstantSound r) (sound' : ctx.ConstantSound q)
    (free : r.kind.isFree = true) (same : q.kind = r.kind) : q = r := by
  obtain ⟨type, name, kind⟩ := r
  obtain ⟨type', name', kind'⟩ := q
  obtain rfl : kind' = kind := same
  cases kind' with
  | int n =>
    obtain ⟨unnamed, shape⟩ := sound
    obtain ⟨unnamed', shape'⟩ := sound'
    have types : type' = type := tabled.type_unique shape' shape
    have names : name' = name := unnamed'.trans unnamed.symm
    rw [types, names]
  | bytes content =>
    obtain ⟨unnamed, byte, eight, shape⟩ := sound
    obtain ⟨unnamed', byte', eight', shape'⟩ := sound'
    rw [tabled.type_unique eight' eight] at shape'
    have types : type' = type := tabled.type_unique shape' shape
    have names : name' = name := unnamed'.trans unnamed.symm
    rw [types, names]
  | _ => cases free

theorem revise (id : ctx'.id = ctx.id) (types : ctx'.types = ctx.types)
    (typeTable : ctx'.typeTable = ctx.typeTable) (constantTable : ctx'.constantTable = ctx.constantTable)
    (values : ∀ v key, (∃ r, ctx'.value v = .ok r ∧ r.kind.key? = some key) ↔
      ∃ r, ctx.value v = .ok r ∧ r.kind.key? = some key) : ctx'.Tabled where
  types s t := by
    rw [typeTable, shape_congr id types]
    exact tabled.types s t
  constants key v := by
    rw [constantTable, values]
    exact tabled.constants key v
  before v r base indices inBounds read content := by
    obtain ⟨q, read', content'⟩ := (values v _).mp ⟨r, read, content⟩
    exact tabled.before v q base indices inBounds read' content'

theorem rest (id : ctx'.id = ctx.id) (types : ctx'.types = ctx.types)
    (typeTable : ctx'.typeTable = ctx.typeTable) (constantTable : ctx'.constantTable = ctx.constantTable)
    (values : ctx'.values = ctx.values) : ctx'.Tabled :=
  tabled.revise id types typeTable constantTable fun v key => by rw [value_congr id values]

end Tabled

/-! ### More entries -/

structure Gains (ctx ctx' : Context) : Prop where
  has : ∀ h, ctx.Has h → ctx'.Has h
  shape : ∀ t s, ctx.shape t = .ok s → ctx'.shape t = .ok s
  value : ∀ v r, ctx.Has (.value v) → (ctx'.value v = .ok r ↔ ctx.value v = .ok r)
  block : ∀ b r, ctx.Has (.block b) → (ctx'.block b = .ok r ↔ ctx.block b = .ok r)
  module : ∀ m r, ctx.Has (.module m) → (ctx'.module m = .ok r ↔ ctx.module m = .ok r)

theorem Gains.refl (ctx : Context) : ctx.Gains ctx :=
  ⟨fun _ has => has, fun _ _ read => read, fun _ _ _ => .rfl, fun _ _ _ => .rfl, fun _ _ _ => .rfl⟩

theorem gains_of_entries (id : ctx'.id = ctx.id)
    (types : ∀ (i : Nat) s, ctx.types[i]? = some s → ctx'.types[i]? = some s)
    (values : ∀ (i : Nat) r, ctx.values[i]? = some r → ctx'.values[i]? = some r)
    (blocks : ∀ (i : Nat) r, ctx.blocks[i]? = some r → ctx'.blocks[i]? = some r)
    (modules : ∀ (i : Nat) r, ctx.modules[i]? = some r → ctx'.modules[i]? = some r) :
    ctx.Gains ctx' where
  has h has := by
    have inside {α : Type} {xs ys : Array α} {i : Nat}
        (kept : ∀ (i : Nat) x, xs[i]? = some x → ys[i]? = some x) (h : i < xs.size) : i < ys.size :=
      (Array.getElem?_eq_some_iff.mp (kept i _ (Array.getElem?_eq_getElem h))).1
    cases h with
    | type t => exact ⟨has.1.trans id.symm, inside types has.2⟩
    | value v => exact ⟨has.1.trans id.symm, inside values has.2⟩
    | block b => exact ⟨has.1.trans id.symm, inside blocks has.2⟩
    | module m => exact ⟨has.1.trans id.symm, inside modules has.2⟩
  shape t s read := by
    obtain ⟨owner, stored⟩ := shape_eq_ok.mp read
    exact shape_eq_ok.mpr ⟨owner.trans id.symm, types _ s stored⟩
  value v r has := by
    have stored := Array.getElem?_eq_getElem has.2
    rw [value_eq_ok, value_eq_ok, id, values _ _ stored, stored]
  block b r has := by
    have stored := Array.getElem?_eq_getElem has.2
    rw [block_eq_ok, block_eq_ok, id, blocks _ _ stored, stored]
  module m r has := by
    have stored := Array.getElem?_eq_getElem has.2
    rw [module_eq_ok, module_eq_ok, id, modules _ _ stored, stored]

theorem addType_gains (s : Shape) : ctx.Gains (ctx.addType s) :=
  gains_of_entries rfl (fun _ _ => getElem?_push_of_some) (fun _ _ h => h) (fun _ _ h => h)
    fun _ _ h => h

theorem allocValue_gains (r : ValueRecord) : ctx.Gains (ctx.allocValue r).2 :=
  gains_of_entries rfl (fun _ _ h => h) (fun _ _ => getElem?_push_of_some) (fun _ _ h => h)
    fun _ _ h => h

theorem addConstant_gains (key : ConstantKey) (r : ValueRecord) :
    ctx.Gains (ctx.addConstant key r) :=
  gains_of_entries rfl (fun _ _ h => h) (fun _ _ => getElem?_push_of_some) (fun _ _ h => h)
    fun _ _ h => h

theorem pushBlock_gains (r : BlockRecord) : ctx.Gains { ctx with blocks := ctx.blocks.push r } :=
  gains_of_entries rfl (fun _ _ h => h) (fun _ _ h => h) (fun _ _ => getElem?_push_of_some)
    fun _ _ h => h

theorem pushModule_gains (r : Option ModuleRecord) :
    ctx.Gains { ctx with modules := ctx.modules.push r } :=
  gains_of_entries rfl (fun _ _ h => h) (fun _ _ h => h) (fun _ _ h => h)
    fun _ _ => getElem?_push_of_some

/-- Only the record that a handle names is another. -/
structure Alters (ctx ctx' : Context) (h : Entity) : Prop where
  has : ∀ k, ctx.Has k → ctx'.Has k
  shape : ∀ t s, ctx'.shape t = .ok s ↔ ctx.shape t = .ok s
  value : ∀ v r, .value v ≠ h → (ctx'.value v = .ok r ↔ ctx.value v = .ok r)
  block : ∀ b r, .block b ≠ h → (ctx'.block b = .ok r ↔ ctx.block b = .ok r)
  module : ∀ m r, .module m ≠ h → (ctx'.module m = .ok r ↔ ctx.module m = .ok r)

end Context

namespace Pairing

open Checked (Echoed)

open Context

variable {ρ ρ₂ : Pairing} {c₁ c₂ c c' : Context}

/-! ### What is tracked -/

theorem Tracks.frame (tracks : ρ.Tracks c₁ c) (has : ∀ h, c.Has h → c'.Has h)
    (shape : ∀ t s, c.shape t = .ok s → c'.shape t = .ok s)
    (value : ∀ u v, ρ.Values u v → ∀ r, c'.value v = .ok r ↔ c.value v = .ok r)
    (block : ∀ a b, ρ.Blocks a b → ∀ r, c'.block b = .ok r ↔ c.block b = .ok r)
    (module : ∀ n m, ρ.Modules n m → ∀ r, c'.module m = .ok r ↔ c.module m = .ok r) :
    ρ.Tracks c₁ c' := by
  refine .of_mirrored ?_ (fun t t' paired s read => ?_) ?_ ?_ ?_ tracks.allTypes tracks.allValues
  · exact fun h h' paired => ⟨(tracks.has h h' paired).1, has h' (tracks.has h h' paired).2⟩
  · obtain ⟨s', read', same⟩ := tracks.shape t t' paired s read
    exact ⟨s', shape t' s' read', same⟩
  · exact fun u v paired => (tracks.values paired).frame (fun _ => .rfl) (value u v paired)
  · exact fun a b paired => (tracks.blocks paired).frame (fun _ => .rfl) (block a b paired)
  · exact fun n m paired => (tracks.modules paired).frame (fun _ => .rfl) (module n m paired)

theorem Tracks.gain (tracks : ρ.Tracks c₁ c) (gains : c.Gains c') : ρ.Tracks c₁ c' :=
  tracks.frame gains.has gains.shape
    (fun _ v paired r => gains.value v r (tracks.has _ _ paired).2)
    (fun _ b paired r => gains.block b r (tracks.has _ _ paired).2)
    fun _ m paired r => gains.module m r (tracks.has _ _ paired).2

/-! ### What is taken into a pairing -/

def Corresponds (ρ : Pairing) (c₁ c : Context) : Entity → Entity → Prop
  | .type t, .type t' => ∃ s s', c₁.shape t = .ok s ∧ c.shape t' = .ok s' ∧ ρ.Shapes s s'
  | .value v, .value v' =>
    ∃ r r', c₁.value v = .ok r ∧ c.value v' = .ok r' ∧ ρ.ValueRecords r r'
  | .block b, .block b' => ∃ r r', c₁.block b = .ok r ∧ c.block b' = .ok r' ∧ ρ.BlockRecords r r'
  | .module m, .module m' =>
    ∃ r r', c₁.module m = .ok r ∧ c.module m' = .ok r' ∧ ρ.ModuleRecords r r'
  | _, _ => False

theorem Corresponds.has {h h' : Entity} (same : ρ.Corresponds c₁ c h h') :
    c₁.Has h ∧ c.Has h' := by
  unfold Corresponds at same
  split at same
  · obtain ⟨_, _, read, read', _⟩ := same
    exact ⟨has_of_shape read, has_of_shape read'⟩
  · obtain ⟨_, _, read, read', _⟩ := same
    exact ⟨has_of_value read, has_of_value read'⟩
  · obtain ⟨_, _, read, read', _⟩ := same
    exact ⟨has_of_block read, has_of_block read'⟩
  · obtain ⟨_, _, read, read', _⟩ := same
    exact ⟨has_of_module read, has_of_module read'⟩
  · exact same.elim

theorem Corresponds.kind {h h' : Entity} (same : ρ.Corresponds c₁ c h h') : h'.kind = h.kind := by
  unfold Corresponds at same
  split at same
  · rfl
  · rfl
  · rfl
  · rfl
  · exact same.elim

theorem Corresponds.type {t : TypeRef} {h' : Entity} (same : ρ.Corresponds c₁ c (.type t) h') :
    ∃ t', h' = .type t' := by
  match h', same with
  | .type t', _ => exact ⟨t', rfl⟩

theorem Corresponds.value {v : ValueRef} {h' : Entity}
    (same : ρ.Corresponds c₁ c (.value v) h') : ∃ v', h' = .value v' := by
  match h', same with
  | .value v', _ => exact ⟨v', rfl⟩

theorem Corresponds.value' {h : Entity} {v' : ValueRef}
    (same : ρ.Corresponds c₁ c h (.value v')) : ∃ v, h = .value v := by
  match h, same with
  | .value v, _ => exact ⟨v, rfl⟩

section Add

variable {h h' : Entity} {same : h'.kind = h.kind} {fresh : ∀ k, ¬ρ.pairs h k}
  {fresh' : ∀ k, ¬ρ.pairs k h'}

/-- What is new to the first context is tracked with its counterpart. -/
theorem Tracks.add (tracks : ρ.Tracks c₁ c) {c₁' : Context} (gains : c₁.Gains c₁')
    (types : ∀ t s, c₁'.shape t = .ok s → c₁.shape t = .ok s ∨ .type t = h)
    (values : ∀ v r, c₁'.value v = .ok r → c₁.value v = .ok r ∨ .value v = h)
    (new : ρ.Corresponds c₁' c h h') : (ρ.add h h' same fresh fresh').Tracks c₁' c := by
  have sub : ρ ≤ ρ.add h h' same fresh fresh' := le_add same fresh fresh'
  refine .of_mirrored ?_ ?_ ?_ ?_ ?_ ?_ ?_
  · rintro k k' (old | ⟨rfl, rfl⟩)
    · exact ⟨gains.has k (tracks.has k k' old).1, (tracks.has k k' old).2⟩
    · exact new.has
  · rintro t t' (old | ⟨rfl, rfl⟩) s read
    · obtain ⟨q, s', known, read', same⟩ := tracks.shapes old
      obtain rfl := Checked.unique read (gains.shape t q known)
      exact ⟨s', read', same.mono sub⟩
    · obtain ⟨q, s', known, read', same⟩ := new
      obtain rfl := Checked.unique read known
      exact ⟨s', read', same.mono sub⟩
  · rintro v v' (old | ⟨rfl, rfl⟩)
    · have kept := (tracks.values old).frame (gains.value v · (tracks.has _ _ old).1) fun _ => .rfl
      exact kept.mono fun _ _ same => same.mono sub
    · obtain ⟨r, r', read, read', same⟩ := new
      exact .of_reads read read' (same.mono sub)
  · rintro b b' (old | ⟨rfl, rfl⟩)
    · have kept := (tracks.blocks old).frame (gains.block b · (tracks.has _ _ old).1) fun _ => .rfl
      exact kept.mono fun _ _ same => same.mono sub
    · obtain ⟨r, r', read, read', same⟩ := new
      exact .of_reads read read' (same.mono sub)
  · rintro m m' (old | ⟨rfl, rfl⟩)
    · have kept := (tracks.modules old).frame (gains.module m · (tracks.has _ _ old).1) fun _ => .rfl
      exact kept.mono fun _ _ same => same.mono sub
    · obtain ⟨r, r', read, read', same⟩ := new
      exact .of_reads read read' (same.mono sub)
  · intro t s read
    rcases types t s read with known | rfl
    · obtain ⟨t', paired⟩ := tracks.allTypes t s known
      exact ⟨t', sub _ _ paired⟩
    · obtain ⟨t', rfl⟩ := new.type
      exact ⟨t', .inr ⟨rfl, rfl⟩⟩
  · intro v r read
    rcases values v r read with known | rfl
    · obtain ⟨v', paired⟩ := tracks.allValues v r known
      exact ⟨v', sub _ _ paired⟩
    · obtain ⟨v', rfl⟩ := new.value
      exact ⟨v', .inr ⟨rfl, rfl⟩⟩

end Add

/-! ### Records that are rewritten -/

theorem Kinds.live {k k' : ValueKind} (same : ρ.Kinds k k') : k ≠ .erased ∧ k' ≠ .erased := by
  cases same <;> exact ⟨nofun, nofun⟩

theorem Kinds.key?_eq_none {k k' : ValueKind} (same : ρ.Kinds k k') (own : k.key? = none) :
    k'.key? = none := by
  cases same <;> first | rfl | cases own

theorem Kinds.isFree {k k' : ValueKind} (same : ρ.Kinds k k') : k'.isFree = k.isFree := by
  cases same <;> rfl

/-- A record that both contexts have is rewritten, and corresponds again. -/
theorem Tracks.alter (tracks : ρ.Tracks c₁ c) {c₁' : Context} {h h' : Entity}
    (paired : ρ.pairs h h') (alters₁ : c₁.Alters c₁' h) (alters : c.Alters c' h')
    (same : ρ.Corresponds c₁' c' h h') : ρ.Tracks c₁' c' := by
  have other {k k' : Entity} (pair : ρ.pairs k k') : k' = h' ↔ k = h := eq_iff ρ.unique pair paired
  refine .of_mirrored ?_ ?_ ?_ ?_ ?_ ?_ ?_
  · intro k k' pair
    exact ⟨alters₁.has k (tracks.has k k' pair).1, alters.has k' (tracks.has k k' pair).2⟩
  · intro t t' pair s read
    obtain ⟨s', read', shapes⟩ := tracks.shape t t' pair s ((alters₁.shape t s).mp read)
    exact ⟨s', (alters.shape t' s').mpr read', shapes⟩
  · intro v v' pair
    by_cases rewritten : Entity.value v = h
    · obtain rfl := (other pair).mpr rewritten
      subst rewritten
      obtain ⟨r, r', read, read', records⟩ := same
      exact .of_reads read read' records
    · exact (tracks.values pair).frame (alters₁.value v · rewritten)
        (alters.value v' · (mt (other pair).mp rewritten))
  · intro b b' pair
    by_cases rewritten : Entity.block b = h
    · obtain rfl := (other pair).mpr rewritten
      subst rewritten
      obtain ⟨r, r', read, read', records⟩ := same
      exact .of_reads read read' records
    · exact (tracks.blocks pair).frame (alters₁.block b · rewritten)
        (alters.block b' · (mt (other pair).mp rewritten))
  · intro m m' pair
    by_cases rewritten : Entity.module m = h
    · obtain rfl := (other pair).mpr rewritten
      subst rewritten
      obtain ⟨r, r', read, read', records⟩ := same
      exact .of_reads read read' records
    · exact (tracks.modules pair).frame (alters₁.module m · rewritten)
        (alters.module m' · (mt (other pair).mp rewritten))
  · exact fun t s read => tracks.allTypes t s ((alters₁.shape t s).mp read)
  · intro v r read
    by_cases rewritten : Entity.value v = h
    · subst rewritten
      obtain ⟨v', rfl⟩ := same.value
      exact ⟨v', paired⟩
    · exact tracks.allValues v r ((alters₁.value v r rewritten).mp read)

/-! ### Side by side -/

/-- A context that tracks two others, which have only common entries in common. -/
structure SideBySide (ρ ρ₂ : Pairing) (c₁ c₂ c : Context) : Prop where
  left : ρ.Tracks c₁ c
  right : ρ₂.Tracks c₂ c
  apart : ∀ h h₂ k, ρ.pairs h k → ρ₂.pairs h₂ k → c.Common k
  covered : ∀ v r, c.value v = .ok r → (∃ v₁, ρ.Values v₁ v) ∨ ∃ v₂, ρ₂.Values v₂ v
  constants : ∀ v r, c.value v = .ok r → c.ConstantSound r
  leftTabled : c₁.Tabled
  rightTabled : c₂.Tabled
  tabled : c.Tabled

namespace SideBySide

theorem symm (s : SideBySide ρ ρ₂ c₁ c₂ c) : SideBySide ρ₂ ρ c₂ c₁ c :=
  ⟨s.right, s.left, fun h h₂ k p p₂ => s.apart h₂ h k p₂ p, fun v r read => (s.covered v r read).symm,
    s.constants, s.rightTabled, s.leftTabled, s.tabled⟩

theorem new (id₁ id₂ id : ContextId) :
    SideBySide .empty .empty (.new id₁) (.new id₂) (.new id) := by
  have tracks (id₁ : ContextId) : empty.Tracks (.new id₁) (.new id) := by
    have none {e e' : Entity} {p : Prop} (paired : empty.pairs e e') : p := False.elim paired
    refine ⟨⟨fun _ _ => none, fun _ _ => none, fun _ _ => none, fun _ _ => none, fun _ _ => none⟩,
      fun _ _ _ paired => none paired, fun _ _ _ paired => none paired,
      fun _ _ _ paired => none paired, ?_, ?_⟩
    · exact fun t s read => by simp [Context.new, shape_eq_ok] at read
    · exact fun v r read => by simp [Context.new, value_eq_ok] at read
  have tabled (id : ContextId) : (Context.new id).Tabled :=
    (wellFormed_new id).toTabled List.nodup_nil
  refine ⟨tracks id₁, tracks id₂, fun _ _ _ paired => paired.elim, ?_, ?_, tabled id₁, tabled id₂, tabled id⟩
  · exact fun v r read => by simp [Context.new, value_eq_ok] at read
  · exact fun v r read => by simp [Context.new, value_eq_ok] at read

/-- The first user gets an entry, which is new to the shared context or common. -/
theorem add (s : SideBySide ρ ρ₂ c₁ c₂ c) {c₁' : Context} {h h' : Entity} (gains₁ : c₁.Gains c₁')
    (gains : c.Gains c') (fresh : ∀ k, ¬ρ.pairs h k) (fresh' : ∀ k, ¬ρ.pairs k h')
    (types : ∀ t s, c₁'.shape t = .ok s → c₁.shape t = .ok s ∨ .type t = h)
    (values : ∀ v r, c₁'.value v = .ok r → c₁.value v = .ok r ∨ .value v = h)
    (new : ρ.Corresponds c₁' c' h h') (common : c.Has h' → c'.Common h')
    (entries : ∀ v r, c'.value v = .ok r →
      c.value v = .ok r ∨ (.value v = h' ∧ c'.ConstantSound r))
    (tabled₁ : c₁'.Tabled) (tabled : c'.Tabled) :
    ∃ ρ', ρ ≤ ρ' ∧ SideBySide ρ' ρ₂ c₁' c₂ c' ∧ ρ'.pairs h h' := by
  have same := new.kind
  refine ⟨ρ.add h h' same fresh fresh', le_add same fresh fresh', ?_, add_self same fresh fresh'⟩
  refine ⟨(s.left.gain gains).add gains₁ types values new, s.right.gain gains, ?_, ?_, ?_, tabled₁,
    s.rightTabled, tabled⟩
  · intro k k₂ l pair pair₂
    rcases pair with old | ⟨_, rfl⟩
    · have shared := s.apart k k₂ l old pair₂
      cases l with
      | type => exact trivial
      | value v =>
        obtain ⟨r, read, free⟩ := shared
        exact ⟨r, (gains.value v r (has_of_value read)).mpr read, free⟩
      | block | module => exact shared
    · exact common (s.right.has k₂ l pair₂).2
  · intro v r read
    rcases entries v r read with old | ⟨same, _⟩
    · exact (s.covered v r old).imp_left fun ⟨v₁, pair⟩ => ⟨v₁, .inl pair⟩
    · subst same
      obtain ⟨v₁, rfl⟩ := new.value'
      exact .inl ⟨v₁, .inr ⟨rfl, rfl⟩⟩
  · intro v r read
    rcases entries v r read with old | ⟨_, sound⟩
    · exact (s.constants v r old).mono gains.shape
    · exact sound

theorem alter (s : SideBySide ρ ρ₂ c₁ c₂ c) {c₁' : Context} {h h' : Entity}
    (paired : ρ.pairs h h') (alters₁ : c₁.Alters c₁' h) (alters : c.Alters c' h')
    (same : ρ.Corresponds c₁' c' h h') (own : ¬c.Common h')
    (entry : ∀ v r, .value v = h' → c'.value v = .ok r → r.kind.key? = none)
    (tabled₁ : c₁'.Tabled) (tabled : c'.Tabled) : SideBySide ρ ρ₂ c₁' c₂ c' := by
  have other {k k' : Entity} (pair : ρ₂.pairs k k') : k' ≠ h' := by
    rintro rfl
    exact own (s.apart h k k' paired pair)
  refine ⟨s.left.alter paired alters₁ alters same, ?_, ?_, ?_, ?_, tabled₁, s.rightTabled, tabled⟩
  · exact s.right.frame alters.has (fun t q => (alters.shape t q).mpr)
      (fun _ v pair r => alters.value v r (other pair))
      (fun _ b pair r => alters.block b r (other pair))
      fun _ m pair r => alters.module m r (other pair)
  · intro k k₂ l pair pair₂
    have shared := s.apart k k₂ l pair pair₂
    cases l with
    | type => exact trivial
    | value v =>
      obtain ⟨r, read, free⟩ := shared
      exact ⟨r, (alters.value v r (other pair₂)).mpr read, free⟩
    | block | module => exact shared
  · intro v r read
    by_cases rewritten : Entity.value v = h'
    · subst rewritten
      obtain ⟨v₁, rfl⟩ := same.value'
      exact .inl ⟨v₁, paired⟩
    · exact s.covered v r ((alters.value v r rewritten).mp read)
  · intro v r read
    by_cases rewritten : Entity.value v = h'
    · exact .of_own (entry v r rewritten read)
    · exact (s.constants v r ((alters.value v r rewritten).mp read)).mono fun t q => (alters.shape t q).mpr
end SideBySide
end Pairing
end ModuleIR
