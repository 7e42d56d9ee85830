import ModuleIR.Proofs.Interleaving.Sharing

set_option autoImplicit false

/-!
# The same change on both sides

What one user does to the arenas of his own context, and what the same does to the shared one. A type
or a constant may be there already on one side and be new on the other: it is new to the user's own
context alone when the other user had asked for it before. Everything else that is made is new to
both, and a record is rewritten on both sides.
-/
namespace ModuleIR

open List (Forall₂)

namespace Context

variable {ctx : Context}

/-- Types stay what they are, and what the user has for himself stays his. -/
structure Keeps (ctx ctx' : Context) : Prop where
  shape : ∀ t s, ctx.shape t = .ok s → ctx'.shape t = .ok s
  owned : ∀ e, ctx.Owned e → ctx'.Owned e

theorem Keeps.refl (ctx : Context) : ctx.Keeps ctx := ⟨fun _ _ read => read, fun _ owned => owned⟩

theorem Keeps.trans {ctx' ctx'' : Context} (h : ctx.Keeps ctx') (h' : ctx'.Keeps ctx'') :
    ctx.Keeps ctx'' :=
  ⟨fun t s read => h'.shape t s (h.shape t s read), fun e owned => h'.owned e (h.owned e owned)⟩

theorem Gains.keeps {ctx' : Context} (gains : ctx.Gains ctx') : ctx.Keeps ctx' := by
  refine ⟨gains.shape, fun e owned => ?_⟩
  cases e with
  | type => exact owned
  | value v =>
    obtain ⟨r, read, content⟩ := owned
    exact ⟨r, (gains.value v r (has_of_value read)).mpr read, content⟩
  | block b =>
    obtain ⟨r, read⟩ := owned
    exact ⟨r, (gains.block b r (has_of_block read)).mpr read⟩
  | module m =>
    obtain ⟨r, read⟩ := owned
    exact ⟨r, (gains.module m r (has_of_module read)).mpr read⟩

theorem Alters.keeps {ctx' : Context} {h : Entity} (alters : ctx.Alters ctx' h)
    (owned : ctx'.Owned h) : ctx.Keeps ctx' := by
  refine ⟨fun t s => (alters.shape t s).mpr, fun e before => ?_⟩
  by_cases same : e = h
  · exact same ▸ owned
  cases e with
  | type => exact before
  | value v =>
    obtain ⟨r, read, content⟩ := before
    exact ⟨r, (alters.value v r same).mpr read, content⟩
  | block b =>
    obtain ⟨r, read⟩ := before
    exact ⟨r, (alters.block b r same).mpr read⟩
  | module m =>
    obtain ⟨r, read⟩ := before
    exact ⟨r, (alters.module m r same).mpr read⟩

/-! ### Tables after a change -/

theorem Tabled.addType (tabled : ctx.Tabled) {s : Shape} (fresh : ctx.typeTable.find? s = none) :
    (ctx.addType s).Tabled where
  types _ _ := find?_addType tabled.types fresh
  constants key v := by
    have same (u : ValueRef) : (ctx.addType s).value u = ctx.value u := value_congr rfl rfl u
    simp only [same]
    exact tabled.constants key v
  before v r base indices inBounds read := by
    have same : (ctx.addType s).value v = ctx.value v := value_congr rfl rfl v
    rw [same] at read
    exact tabled.before v r base indices inBounds read

theorem Tabled.addConstant (tabled : ctx.Tabled) {key : ConstantKey} {record : ValueRecord}
    (fresh : ctx.constantTable.find? key = none) (content : record.kind.key? = some key)
    (before : ∀ base indices inBounds, key = .elementPtr base indices inBounds →
      ctx.Has (.value base)) : (ctx.addConstant key record).Tabled where
  types s t := by
    have same : (ctx.addConstant key record).shape t = ctx.shape t := shape_congr rfl rfl t
    rw [same]
    exact tabled.types s t
  constants k v := by
    change (ctx.constantTable.insert key ⟨ctx.id, ctx.values.size⟩).find? k = some v ↔ _
    simp only [Table.find?_insert, value_addConstant content]
    by_cases same : k = key
    · subst same
      rw [if_pos rfl, Option.some.injEq]
      constructor
      · rintro rfl
        exact ⟨record, .inr ⟨rfl, rfl⟩, content⟩
      · rintro ⟨r, old | ⟨rfl, rfl⟩, has⟩
        · have found := (tabled.constants k v).mpr ⟨r, old, has⟩
          rw [fresh] at found
          cases found
        · rfl
    · rw [if_neg same, tabled.constants k v]
      constructor
      · rintro ⟨r, read, has⟩
        exact ⟨r, .inl read, has⟩
      · rintro ⟨r, old | ⟨rfl, rfl⟩, has⟩
        · exact ⟨r, old, has⟩
        · exact absurd (Option.some.inj (has.symm.trans content)) same
  before v r base indices inBounds read has := by
    rcases (value_addConstant content).mp read with old | ⟨rfl, rfl⟩
    · exact tabled.before v r base indices inBounds old has
    · exact (before base indices inBounds (Option.some.inj (content.symm.trans has))).2

theorem Tabled.allocValue (tabled : ctx.Tabled) {record : ValueRecord}
    (live : record.kind ≠ .erased) (own : record.kind.key? = none) :
    (ctx.allocValue record).2.Tabled := by
  refine tabled.revise rfl rfl rfl rfl fun v key => ?_
  simp only [value_allocValue live]
  constructor
  · rintro ⟨r, old | ⟨rfl, rfl⟩, has⟩
    · exact ⟨r, old, has⟩
    · rw [own] at has
      cases has
  · exact fun ⟨r, read, has⟩ => ⟨r, .inl read, has⟩

theorem Tabled.modifyValue (tabled : ctx.Tabled) {v : ValueRef} {r : ValueRecord}
    {f : ValueRecord → ValueRecord} (read : ctx.value v = .ok r) (own : r.kind.key? = none)
    (live : (f r).kind ≠ .erased) (own' : (f r).kind.key? = none) :
    (ctx.modifyValue v f).Tabled := by
  refine tabled.revise rfl rfl rfl rfl fun u key => ?_
  simp only [value_modifyValue read live]
  constructor
  · rintro ⟨q, ⟨rfl, rfl⟩ | ⟨_, old⟩, has⟩
    · rw [own'] at has
      cases has
    · exact ⟨q, old, has⟩
  · rintro ⟨q, old, has⟩
    refine ⟨q, .inr ⟨?_, old⟩, has⟩
    rintro rfl
    obtain rfl := Checked.unique read old
    rw [own] at has
    cases has

/-! ### One record rewritten -/

theorem modifyValue_alters {v : ValueRef} {r : ValueRecord} {f : ValueRecord → ValueRecord}
    (read : ctx.value v = .ok r) (live : (f r).kind ≠ .erased) :
    ctx.Alters (ctx.modifyValue v f) (.value v) where
  has _ := Has.mono rfl (Nat.le_refl _) (Nat.le_of_eq Array.size_modify.symm) (Nat.le_refl _)
    (Nat.le_refl _)
  shape _ _ := .rfl
  value u q other := by
    rw [value_modifyValue read live]
    have apart : u ≠ v := fun same => other (congrArg Entity.value same)
    simp [apart]
  block _ _ _ := .rfl
  module _ _ _ := .rfl

theorem modifyBlock_alters {b : BlockRef} {r : BlockRecord} {f : BlockRecord → BlockRecord}
    (read : ctx.block b = .ok r) (live : (f r).erased = false) :
    ctx.Alters (ctx.modifyBlock b f) (.block b) where
  has _ := Has.mono rfl (Nat.le_refl _) (Nat.le_refl _) (Nat.le_of_eq Array.size_modify.symm)
    (Nat.le_refl _)
  shape _ _ := .rfl
  value _ _ _ := .rfl
  block a q other := by
    rw [block_modifyBlock read live]
    have apart : a ≠ b := fun same => other (congrArg Entity.block same)
    simp [apart]
  module _ _ _ := .rfl

theorem modifyModule_alters {m : ModuleRef} {r : ModuleRecord} {f : ModuleRecord → ModuleRecord}
    (read : ctx.module m = .ok r) : ctx.Alters (ctx.modifyModule m f) (.module m) where
  has _ := Has.mono rfl (Nat.le_refl _) (Nat.le_refl _) (Nat.le_refl _)
    (Nat.le_of_eq Array.size_modify.symm)
  shape _ _ := .rfl
  value _ _ _ := .rfl
  block _ _ _ := .rfl
  module n q other := by
    rw [module_modifyModule read]
    have apart : n ≠ m := fun same => other (congrArg Entity.module same)
    simp [apart]

end Context

theorem ValueKind.eq_of_key? {k k' : ValueKind} (free : k.isFree = true)
    (same : k'.key? = k.key?) : k' = k := by
  cases k <;> cases free <;> cases k' <;> cases same <;> rfl

theorem ValueKind.not_free_of_own {k : ValueKind} (own : k.key? = none) : ¬k.isFree = true := by
  intro free
  cases k with
  | int | bytes => cases own
  | _ => cases free

namespace Pairing

open Context

variable {ρ ρ₂ : Pairing} {c₁ c₂ c : Context}

/-- The first user's context and the shared one have gone on side by side. -/
def Onward (ρ ρ₂ : Pairing) (c₁ c₂ c₁' c' : Context) (R : Pairing → Prop) : Prop :=
  ∃ ρ', ρ ≤ ρ' ∧ SideBySide ρ' ρ₂ c₁' c₂ c' ∧ c₁.Keeps c₁' ∧ R ρ'

theorem Tracks.unpaired (tracks : ρ.Tracks c₁ c) {e : Entity} (absent : ¬c₁.Has e) :
    ∀ k, ¬ρ.pairs e k := fun k paired => absent (tracks.has e k paired).1

theorem Tracks.unpaired' (tracks : ρ.Tracks c₁ c) {e : Entity} (absent : ¬c.Has e) :
    ∀ k, ¬ρ.pairs k e := fun k paired => absent (tracks.has k e paired).2

theorem Tracks.unpaired_type (tracks : ρ.Tracks c₁ c) (tabled₁ : c₁.Tabled) {q q' : Shape}
    (shapes : ρ.Shapes q q') (found : c₁.typeTable.find? q = none) {t' : TypeRef}
    (read' : c.shape t' = .ok q') (k : Entity) : ¬ρ.pairs k (.type t') := by
  intro paired
  obtain ⟨t, rfl⟩ := ρ.type_of_pair paired
  obtain ⟨q₁, q₂, read, known, same⟩ := tracks.shapes paired
  obtain rfl := Checked.unique known read'
  obtain rfl := shapes_unique.1 same shapes
  rw [(tabled₁.types q₁ t).mpr read] at found
  cases found

theorem Tracks.unpaired_constant (tracks : ρ.Tracks c₁ c) (tabled₁ : c₁.Tabled)
    {key key' : ConstantKey} (keys : ρ.Keys key key') (found : c₁.constantTable.find? key = none)
    {v' : ValueRef} {r' : ValueRecord} (read' : c.value v' = .ok r')
    (content : r'.kind.key? = some key') (k : Entity) : ¬ρ.pairs k (.value v') := by
  intro paired
  obtain ⟨v, rfl⟩ := ρ.value_of_pair paired
  obtain ⟨r, read, same⟩ := (tracks.values paired).origin read'
  rw [(tabled₁.constants key v).mpr ⟨r, read, (same.kind.key?_eq_iff keys).mp content⟩] at found
  cases found

theorem Tracks.bases (tracks : ρ.Tracks c₁ c) {key key' : ConstantKey} (keys : ρ.Keys key key') :
    (∀ base indices inBounds, key = .elementPtr base indices inBounds → c₁.Has (.value base)) ∧
      ∀ base indices inBounds, key' = .elementPtr base indices inBounds → c.Has (.value base) := by
  cases keys with
  | elementPtr base =>
    have has := tracks.has _ _ base
    constructor
    · rintro _ _ _ ⟨⟩
      exact has.1
    · rintro _ _ _ ⟨⟩
      exact has.2
  | _ => exact ⟨nofun, nofun⟩

namespace SideBySide

variable (s : SideBySide ρ ρ₂ c₁ c₂ c)
include s

/-! ### Types -/

/-- A shape that the first user has is found by him and by all; one that he does not have is new to
him, and maybe known to all. -/
theorem internType {q q' : Shape} (shapes : ρ.Shapes q q') :
    Onward ρ ρ₂ c₁ c₂ (c₁.internType q).2 (c.internType q').2 fun ρ' =>
      ρ'.Types (c₁.internType q).1 (c.internType q').1 := by
  unfold Context.internType
  cases found : c₁.typeTable.find? q with
  | some t =>
    have known := (s.leftTabled.types q t).mp found
    obtain ⟨t', paired⟩ := s.left.allTypes t q known
    obtain ⟨q₁, q₂, read, read', same⟩ := s.left.shapes paired
    obtain rfl := Checked.unique read known
    obtain rfl := shapes_unique.2 same shapes
    rw [(s.tabled.types q₂ t').mpr read']
    exact ⟨ρ, le_refl ρ, s, .refl c₁, paired⟩
  | none =>
    have fresh := s.left.unpaired (e := .type ⟨c₁.id, c₁.types.size⟩) fun has =>
      Nat.lt_irrefl _ has.2
    have gains₁ : c₁.Gains (c₁.addType q) := addType_gains q
    have read : (c₁.addType q).shape ⟨c₁.id, c₁.types.size⟩ = .ok q :=
      shape_addType.mpr (.inr ⟨rfl, rfl⟩)
    have types t u (known : (c₁.addType q).shape t = .ok u) :
        c₁.shape t = .ok u ∨ Entity.type t = .type ⟨c₁.id, c₁.types.size⟩ :=
      (shape_addType.mp known).imp_right fun last => congrArg Entity.type last.1
    have values v r (known : (c₁.addType q).value v = .ok r) :
        c₁.value v = .ok r ∨ Entity.value v = .type ⟨c₁.id, c₁.types.size⟩ := .inl known
    have tabled₁ := s.leftTabled.addType found
    cases found' : c.typeTable.find? q' with
    | some t' =>
      have read' := (s.tabled.types q' t').mp found'
      have new := s.left.unpaired_type s.leftTabled shapes found read'
      obtain ⟨ρ', sub, side, paired⟩ := s.add gains₁ (.refl c) fresh new types values
        ⟨q, q', read, read', shapes⟩ (fun _ => trivial) (fun v r known => .inl known) tabled₁ s.tabled
      exact ⟨ρ', sub, side, gains₁.keeps, paired⟩
    | none =>
      have fresh' := s.left.unpaired' (e := .type ⟨c.id, c.types.size⟩) fun has =>
        Nat.lt_irrefl _ has.2
      have read' : (c.addType q').shape ⟨c.id, c.types.size⟩ = .ok q' :=
        shape_addType.mpr (.inr ⟨rfl, rfl⟩)
      obtain ⟨ρ', sub, side, paired⟩ := s.add gains₁ (addType_gains q') fresh fresh' types values
        ⟨q, q', read, read', shapes⟩ (fun _ => trivial) (fun v r known => .inl known) tabled₁
        (s.tabled.addType found')
      exact ⟨ρ', sub, side, gains₁.keeps, paired⟩

/-! ### Constants -/

/-- A constant that is new to the first user, and known to the other, is an integer or byte array:
pointer arithmetic starts from what only one of them has. -/
theorem free_of_known {key' : ConstantKey} {v' : ValueRef} {q : ValueRecord} (read' : c.value v' = .ok q)
    (content : q.kind.key? = some key') (new : ∀ k, ¬ρ.pairs k (.value v'))
    (own : ∀ base indices inBounds, key' = .elementPtr base indices inBounds →
      ∀ k, ¬ρ₂.pairs k (.value base)) : q.kind.isFree = true := by
  cases kind : q.kind with
  | int | bytes => rfl
  | elementPtr e =>
    rw [kind] at content
    obtain rfl : .elementPtr e.base e.indices e.inBounds = key' := Option.some.inj content
    rcases s.covered v' q read' with ⟨v, paired⟩ | ⟨v₂, paired⟩
    · exact (new _ paired).elim
    · obtain ⟨r₂, _, same⟩ := (s.right.values paired).origin read'
      have kinds := same.kind
      rw [kind] at kinds
      cases content₂ : r₂.kind with
      | elementPtr e₂ =>
        rw [content₂] at kinds
        cases kinds with | elementPtr record =>
        exact absurd record.base (own _ _ _ rfl _)
      | _ => rw [content₂] at kinds; cases kinds
  | _ => rw [kind] at content; cases content

theorem internConstant {key key' : ConstantKey} {record record' : ValueRecord}
    (keys : ρ.Keys key key') (records : ρ.ValueRecords record record')
    (content : record.kind.key? = some key) (content' : record'.kind.key? = some key')
    (sound : c.ConstantSound record')
    (own : ∀ base indices inBounds, key' = .elementPtr base indices inBounds →
      ∀ k, ¬ρ₂.pairs k (.value base)) :
    Onward ρ ρ₂ c₁ c₂ (c₁.internConstant key record).2 (c.internConstant key' record').2 fun ρ' =>
      ρ'.Values (c₁.internConstant key record).1 (c.internConstant key' record').1 := by
  unfold Context.internConstant
  cases found : c₁.constantTable.find? key with
  | some v =>
    obtain ⟨r, read, has⟩ := (s.leftTabled.constants key v).mp found
    obtain ⟨v', paired⟩ := s.left.allValues v r read
    obtain ⟨r', read', same⟩ := s.left.value v v' paired r read
    rw [(s.tabled.constants key' v').mpr ⟨r', read', (same.kind.key?_eq_iff keys).mpr has⟩]
    exact ⟨ρ, le_refl ρ, s, .refl c₁, paired⟩
  | none =>
    have fresh := s.left.unpaired (e := .value ⟨c₁.id, c₁.values.size⟩) fun has =>
      Nat.lt_irrefl _ has.2
    have gains₁ : c₁.Gains (c₁.addConstant key record) := addConstant_gains key record
    have read : (c₁.addConstant key record).value ⟨c₁.id, c₁.values.size⟩ = .ok record :=
      (value_addConstant content).mpr (.inr ⟨rfl, rfl⟩)
    have types t u (known : (c₁.addConstant key record).shape t = .ok u) :
        c₁.shape t = .ok u ∨ Entity.type t = .value ⟨c₁.id, c₁.values.size⟩ := .inl known
    have values v r (known : (c₁.addConstant key record).value v = .ok r) :
        c₁.value v = .ok r ∨ Entity.value v = .value ⟨c₁.id, c₁.values.size⟩ :=
      ((value_addConstant content).mp known).imp_right fun last => congrArg Entity.value last.1
    obtain ⟨before, before'⟩ := s.left.bases keys
    have tabled₁ := s.leftTabled.addConstant found content before
    cases found' : c.constantTable.find? key' with
    | some v' =>
      obtain ⟨r', read', has⟩ := (s.tabled.constants key' v').mp found'
      have new := s.left.unpaired_constant s.leftTabled keys found read' has
      have free := s.free_of_known read' has new own
      have kinds := ValueKind.eq_of_key? free (content'.trans has.symm)
      obtain rfl := s.tabled.free_unique (s.constants v' r' read') sound free kinds
      obtain ⟨ρ', sub, side, paired⟩ := s.add gains₁ (.refl c) fresh new types values
        ⟨record, _, read, read', records⟩ (fun _ => ⟨_, read', free⟩) (fun v r known => .inl known)
        tabled₁ s.tabled
      exact ⟨ρ', sub, side, gains₁.keeps, paired⟩
    | none =>
      have absent : ¬c.Has (.value ⟨c.id, c.values.size⟩) := fun has => Nat.lt_irrefl _ has.2
      have fresh' := s.left.unpaired' absent
      have gains : c.Gains (c.addConstant key' record') := addConstant_gains key' record'
      have read' : (c.addConstant key' record').value ⟨c.id, c.values.size⟩ = .ok record' :=
        (value_addConstant content').mpr (.inr ⟨rfl, rfl⟩)
      have entries v r (known : (c.addConstant key' record').value v = .ok r) : c.value v = .ok r ∨
          (Entity.value v = .value ⟨c.id, c.values.size⟩ ∧ (c.addConstant key' record').ConstantSound r) := by
        rcases (value_addConstant content').mp known with old | ⟨rfl, rfl⟩
        · exact .inl old
        · exact .inr ⟨rfl, sound.mono gains.shape⟩
      obtain ⟨ρ', sub, side, paired⟩ := s.add gains₁ gains fresh fresh' types values
        ⟨record, record', read, read', records⟩ (fun has => (absent has).elim) entries tabled₁
        (s.tabled.addConstant found' content' before')
      exact ⟨ρ', sub, side, gains₁.keeps, paired⟩

/-! ### What is made by one -/

theorem allocValue {r r' : ValueRecord} (records : ρ.ValueRecords r r') (own : r.kind.key? = none) :
    Onward ρ ρ₂ c₁ c₂ (c₁.allocValue r).2 (c.allocValue r').2 fun ρ' =>
      ρ'.Values (c₁.allocValue r).1 (c.allocValue r').1 ∧
        (c₁.allocValue r).2.Owned (.value (c₁.allocValue r).1) := by
  obtain ⟨live, live'⟩ := records.kind.live
  have own' := records.kind.key?_eq_none own
  have absent : ¬c.Has (.value ⟨c.id, c.values.size⟩) := fun has => Nat.lt_irrefl _ has.2
  have fresh := s.left.unpaired (e := .value ⟨c₁.id, c₁.values.size⟩) fun has =>
    Nat.lt_irrefl _ has.2
  have fresh' := s.left.unpaired' absent
  have gains₁ : c₁.Gains (c₁.allocValue r).2 := allocValue_gains r
  have read : (c₁.allocValue r).2.value ⟨c₁.id, c₁.values.size⟩ = .ok r :=
    (value_allocValue live).mpr (.inr ⟨rfl, rfl⟩)
  have read' : (c.allocValue r').2.value ⟨c.id, c.values.size⟩ = .ok r' :=
    (value_allocValue live').mpr (.inr ⟨rfl, rfl⟩)
  have entries v q (known : (c.allocValue r').2.value v = .ok q) : c.value v = .ok q ∨
      (Entity.value v = .value ⟨c.id, c.values.size⟩ ∧ (c.allocValue r').2.ConstantSound q) := by
    rcases (value_allocValue live').mp known with old | ⟨rfl, rfl⟩
    · exact .inl old
    · exact .inr ⟨rfl, .of_own own'⟩
  obtain ⟨ρ', sub, side, paired⟩ := s.add gains₁ (allocValue_gains r') fresh fresh'
    (fun t q known => .inl known)
    (fun v q known => ((value_allocValue live).mp known).imp_right fun last =>
      congrArg Entity.value last.1)
    ⟨r, r', read, read', records⟩ (fun has => (absent has).elim) entries
    (s.leftTabled.allocValue live own) (s.tabled.allocValue live' own')
  exact ⟨ρ', sub, side, gains₁.keeps, paired, r, read, own⟩

theorem pushBlock {r r' : BlockRecord} (records : ρ.BlockRecords r r') (live : r.erased = false)
    (live' : r'.erased = false) :
    Onward ρ ρ₂ c₁ c₂ { c₁ with blocks := c₁.blocks.push r } { c with blocks := c.blocks.push r' }
      fun ρ' => ρ'.Blocks ⟨c₁.id, c₁.blocks.size⟩ ⟨c.id, c.blocks.size⟩ := by
  have absent : ¬c.Has (.block ⟨c.id, c.blocks.size⟩) := fun has => Nat.lt_irrefl _ has.2
  have fresh := s.left.unpaired (e := .block ⟨c₁.id, c₁.blocks.size⟩) fun has =>
    Nat.lt_irrefl _ has.2
  have fresh' := s.left.unpaired' absent
  have gains₁ : c₁.Gains { c₁ with blocks := c₁.blocks.push r } := pushBlock_gains r
  have read : ({ c₁ with blocks := c₁.blocks.push r } : Context).block ⟨c₁.id, c₁.blocks.size⟩ =
    .ok r := block_eq_ok.mpr ⟨rfl, Array.getElem?_push_size, live⟩
  have read' : ({ c with blocks := c.blocks.push r' } : Context).block ⟨c.id, c.blocks.size⟩ =
    .ok r' := block_eq_ok.mpr ⟨rfl, Array.getElem?_push_size, live'⟩
  obtain ⟨ρ', sub, side, paired⟩ := s.add gains₁ (pushBlock_gains r') fresh fresh'
    (fun t q known => .inl known) (fun v q known => .inl known) ⟨r, r', read, read', records⟩
    (fun has => (absent has).elim) (fun v q known => .inl known)
    (s.leftTabled.rest rfl rfl rfl rfl rfl)
    (s.tabled.rest rfl rfl rfl rfl rfl)
  exact ⟨ρ', sub, side, gains₁.keeps, paired⟩

theorem pushModule {r r' : ModuleRecord} (records : ρ.ModuleRecords r r') :
    Onward ρ ρ₂ c₁ c₂ { c₁ with modules := c₁.modules.push (some r) }
      { c with modules := c.modules.push (some r') }
      fun ρ' => ρ'.Modules ⟨c₁.id, c₁.modules.size⟩ ⟨c.id, c.modules.size⟩ := by
  have absent : ¬c.Has (.module ⟨c.id, c.modules.size⟩) := fun has => Nat.lt_irrefl _ has.2
  have fresh := s.left.unpaired (e := .module ⟨c₁.id, c₁.modules.size⟩) fun has =>
    Nat.lt_irrefl _ has.2
  have fresh' := s.left.unpaired' absent
  have gains₁ : c₁.Gains { c₁ with modules := c₁.modules.push (some r) } :=
    pushModule_gains (some r)
  have read : ({ c₁ with modules := c₁.modules.push (some r) } : Context).module
    ⟨c₁.id, c₁.modules.size⟩ = .ok r := module_eq_ok.mpr ⟨rfl, Array.getElem?_push_size⟩
  have read' : ({ c with modules := c.modules.push (some r') } : Context).module
    ⟨c.id, c.modules.size⟩ = .ok r' := module_eq_ok.mpr ⟨rfl, Array.getElem?_push_size⟩
  obtain ⟨ρ', sub, side, paired⟩ := s.add gains₁ (pushModule_gains (some r')) fresh fresh'
    (fun t q known => .inl known) (fun v q known => .inl known) ⟨r, r', read, read', records⟩
    (fun has => (absent has).elim) (fun v q known => .inl known)
    (s.leftTabled.rest rfl rfl rfl rfl rfl)
    (s.tabled.rest rfl rfl rfl rfl rfl)
  exact ⟨ρ', sub, side, gains₁.keeps, paired⟩

/-! ### What one rewrites -/

theorem own_of_owned {e e' : Entity} (paired : ρ.pairs e e') (owned : c₁.Owned e) :
    ¬c.Common e' := by
  intro common
  cases e with
  | type => exact owned
  | value v =>
    have kinds := ρ.kinds _ _ paired
    cases e' with
    | value v' =>
      obtain ⟨r, read, own⟩ := owned
      obtain ⟨r', read', same⟩ := s.left.value v v' paired r read
      obtain ⟨q, known, free⟩ := common
      obtain rfl := Checked.unique known read'
      rw [same.kind.isFree] at free
      exact ValueKind.not_free_of_own own free
    | type | block | module => cases kinds
  | block | module =>
    have kinds := ρ.kinds _ _ paired
    cases e' <;> first | exact common | cases kinds

theorem modifyValue {v v' : ValueRef} {f f' : ValueRecord → ValueRecord} (paired : ρ.Values v v')
    (owned : c₁.Owned (.value v))
    (same : ∀ r r', c₁.value v = .ok r → c.value v' = .ok r' → ρ.ValueRecords r r' →
      ρ.ValueRecords (f r) (f' r') ∧ (f r).kind.key? = none) :
    SideBySide ρ ρ₂ (c₁.modifyValue v f) c₂ (c.modifyValue v' f') ∧
      c₁.Keeps (c₁.modifyValue v f) := by
  obtain ⟨r, read, own⟩ := owned
  obtain ⟨r', read', records⟩ := s.left.value v v' paired r read
  obtain ⟨records', own'⟩ := same r r' read read' records
  obtain ⟨live, live'⟩ := records'.kind.live
  have alters₁ := modifyValue_alters read live
  have known : (c₁.modifyValue v f).value v = .ok (f r) :=
    (value_modifyValue read live).mpr (.inl ⟨rfl, rfl⟩)
  have known' : (c.modifyValue v' f').value v' = .ok (f' r') :=
    (value_modifyValue read' live').mpr (.inl ⟨rfl, rfl⟩)
  have tabled₁ := s.leftTabled.modifyValue read own live own'
  have tabled := s.tabled.modifyValue read' (records.kind.key?_eq_none own) live'
    (records'.kind.key?_eq_none own')
  have side := s.alter paired alters₁ (modifyValue_alters read' live')
    ⟨_, _, known, known', records'⟩ (s.own_of_owned paired ⟨r, read, own⟩) (by
      rintro u q ⟨⟩ stored
      obtain rfl := Checked.unique stored known'
      exact records'.kind.key?_eq_none own') tabled₁ tabled
  exact ⟨side, alters₁.keeps ⟨_, known, own'⟩⟩

theorem modifyBlock {b b' : BlockRef} {f f' : BlockRecord → BlockRecord} (paired : ρ.Blocks b b')
    (owned : c₁.Owned (.block b))
    (same : ∀ r r', ρ.BlockRecords r r' → ρ.BlockRecords (f r) (f' r'))
    (alive : ∀ r, (f r).erased = r.erased) (alive' : ∀ r, (f' r).erased = r.erased) :
    SideBySide ρ ρ₂ (c₁.modifyBlock b f) c₂ (c.modifyBlock b' f') ∧
      c₁.Keeps (c₁.modifyBlock b f) := by
  obtain ⟨r, read⟩ := owned
  obtain ⟨r', read', records⟩ := s.left.block b b' paired r read
  have live := (alive r).trans (block_eq_ok.mp read).2.2
  have live' := (alive' r').trans (block_eq_ok.mp read').2.2
  have alters₁ := modifyBlock_alters read live
  have known : (c₁.modifyBlock b f).block b = .ok (f r) :=
    (block_modifyBlock read live).mpr (.inl ⟨rfl, rfl⟩)
  have known' : (c.modifyBlock b' f').block b' = .ok (f' r') :=
    (block_modifyBlock read' live').mpr (.inl ⟨rfl, rfl⟩)
  have side := s.alter paired alters₁ (modifyBlock_alters read' live')
    ⟨_, _, known, known', same r r' records⟩ (s.own_of_owned paired ⟨r, read⟩)
    (fun _ _ other => Entity.noConfusion other)
    (s.leftTabled.rest rfl rfl rfl rfl rfl)
    (s.tabled.rest rfl rfl rfl rfl rfl)
  exact ⟨side, alters₁.keeps ⟨_, known⟩⟩

theorem modifyModule {m m' : ModuleRef} {f f' : ModuleRecord → ModuleRecord}
    (paired : ρ.Modules m m') (owned : c₁.Owned (.module m))
    (same : ∀ r r', ρ.ModuleRecords r r' → ρ.ModuleRecords (f r) (f' r')) :
    SideBySide ρ ρ₂ (c₁.modifyModule m f) c₂ (c.modifyModule m' f') ∧
      c₁.Keeps (c₁.modifyModule m f) := by
  obtain ⟨r, read⟩ := owned
  obtain ⟨r', read', records⟩ := s.left.module m m' paired r read
  have alters₁ := modifyModule_alters (f := f) read
  have known : (c₁.modifyModule m f).module m = .ok (f r) :=
    (module_modifyModule read).mpr (.inl ⟨rfl, rfl⟩)
  have known' : (c.modifyModule m' f').module m' = .ok (f' r') :=
    (module_modifyModule read').mpr (.inl ⟨rfl, rfl⟩)
  have side := s.alter paired alters₁ (modifyModule_alters read')
    ⟨_, _, known, known', same r r' records⟩ (s.own_of_owned paired ⟨r, read⟩)
    (fun _ _ other => Entity.noConfusion other)
    (s.leftTabled.rest rfl rfl rfl rfl rfl)
    (s.tabled.rest rfl rfl rfl rfl rfl)
  exact ⟨side, alters₁.keeps ⟨_, known⟩⟩

end SideBySide
end Pairing
end ModuleIR
