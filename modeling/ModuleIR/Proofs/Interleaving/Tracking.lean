import ModuleIR.Build.Instructions
import ModuleIR.Proofs.Interleaving.Pairing

set_option autoImplicit false

/-!
# Reading alike

A context reflects another under a pairing when whatever can be read of the other through a handle
can be read of it through the counterpart, with corresponding records. Reading functions and checks
are made of such reads, so that each of them gives in the one context what it gives in the other; what
they compare is paired one for one, and compares the same. A context that tracks another has what the
other has, and of that nothing which the other has no more.
-/
namespace ModuleIR

open List (Forall₂)

namespace Checked

variable {α β γ δ : Type}

/-- Whatever the first reading gives, the second gives something that corresponds. -/
def Echoed (R : α → β → Prop) (x : Checked α) (y : Checked β) : Prop :=
  ∀ a, x = .ok a → ∃ b, y = .ok b ∧ R a b

namespace Echoed

variable {R : α → β → Prop} {S : γ → δ → Prop} {x x' : Checked α} {y y' : Checked β}

theorem pure {a : α} {b : β} (h : R a b) : Echoed R (Pure.pure a) (Pure.pure b) := by
  rintro _ ⟨⟩
  exact ⟨b, rfl, h⟩

theorem throw {v : Violation} : Echoed R (MonadExcept.throw v) y := by
  rintro a ⟨⟩

theorem bind {f : α → Checked γ} {g : β → Checked δ} (first : Echoed R x y)
    (next : ∀ a b, R a b → Echoed S (f a) (g b)) : Echoed S (x >>= f) (y >>= g) := by
  intro c run
  obtain ⟨a, read, rest⟩ := bind_eq_ok.mp run
  obtain ⟨b, read', same⟩ := first a read
  obtain ⟨d, rest', corresponds⟩ := next a b same c rest
  exact ⟨d, bind_eq_ok.mpr ⟨b, read', rest'⟩, corresponds⟩

theorem skip {z : Checked γ} {f : γ → Checked α} (rest : ∀ c, Echoed R (f c) y) :
    Echoed R (z >>= f) y := by
  intro a run
  obtain ⟨c, _, run⟩ := bind_eq_ok.mp run
  exact rest c a run

theorem ite {p q : Prop} [Decidable p] [Decidable q] (same : q ↔ p) (yes : p → Echoed R x y)
    (no : ¬p → Echoed R x' y') : Echoed R (if p then x else x') (if q then y else y') := by
  by_cases h : p
  · rw [if_pos h, if_pos (same.mpr h)]
    exact yes h
  · rw [if_neg h, if_neg (mt same.mp h)]
    exact no h

theorem forM {f : α → Checked Unit} {g : β → Checked Unit} {as : List α} {bs : List β}
    (listed : Forall₂ R as bs) (each : ∀ a b, R a b → Echoed Eq (f a) (g b)) :
    Echoed Eq (as.forM f) (bs.forM g) := by
  induction listed with
  | nil => exact .pure rfl
  | cons head _ ih => exact (each _ _ head).bind fun _ _ _ => ih

theorem mapM {f : α → Checked γ} {g : β → Checked δ} {as : List α} {bs : List β}
    (listed : Forall₂ R as bs) (each : ∀ a b, R a b → Echoed S (f a) (g b)) :
    Echoed (Forall₂ S) (as.mapM f) (bs.mapM g) := by
  induction listed with
  | nil => exact .pure .nil
  | cons head _ ih =>
    rw [List.mapM_cons, List.mapM_cons]
    exact (each _ _ head).bind fun _ _ same => ih.bind fun _ _ others => .pure (.cons same others)

end Echoed

/-- The second reading echoes the first, and gives nothing that the first does not. -/
structure Mirrored (R : α → β → Prop) (x : Checked α) (y : Checked β) : Prop where
  echoed : Echoed R x y
  back : ∀ b, y = .ok b → ∃ a, x = .ok a

namespace Mirrored

variable {R S : α → β → Prop} {x x' : Checked α} {y y' : Checked β}

theorem of_reads {a : α} {b : β} (read : x = .ok a) (read' : y = .ok b) (same : R a b) :
    Mirrored R x y := by
  refine ⟨fun a' again => ⟨b, read', ?_⟩, fun _ _ => ⟨a, read⟩⟩
  obtain rfl := unique read again
  exact same

theorem mono (h : Mirrored R x y) (sub : ∀ a b, R a b → S a b) : Mirrored S x y where
  echoed a read := by
    obtain ⟨b, read', same⟩ := h.echoed a read
    exact ⟨b, read', sub a b same⟩
  back := h.back

theorem origin (h : Mirrored R x y) {b : β} (read' : y = .ok b) : ∃ a, x = .ok a ∧ R a b := by
  obtain ⟨a, read⟩ := h.back b read'
  obtain ⟨b', again, same⟩ := h.echoed a read
  obtain rfl := unique read' again
  exact ⟨a, read, same⟩

theorem restrict {p q : Prop} (h : Mirrored R x y) (left : ∀ a, x' = .ok a ↔ x = .ok a ∧ p)
    (right : ∀ b, y' = .ok b ↔ y = .ok b ∧ q) (same : ∀ a, x = .ok a → (q ↔ p)) :
    Mirrored R x' y' where
  echoed a read := by
    obtain ⟨known, stays⟩ := (left a).mp read
    obtain ⟨b, known', related⟩ := h.echoed a known
    exact ⟨b, (right b).mpr ⟨known', (same a known).mpr stays⟩, related⟩
  back b read' := by
    obtain ⟨known', stays⟩ := (right b).mp read'
    obtain ⟨a, known⟩ := h.back b known'
    exact ⟨a, (left a).mpr ⟨known, (same a known).mp stays⟩⟩

theorem frame (h : Mirrored R x y) (left : ∀ a, x' = .ok a ↔ x = .ok a)
    (right : ∀ b, y' = .ok b ↔ y = .ok b) : Mirrored R x' y' :=
  h.restrict (p := True) (q := True) (by simpa using left) (by simpa using right) fun _ _ => .rfl

end Mirrored
end Checked

namespace Context

def Has (ctx : Context) : Entity → Prop
  | .type t => t.ctx = ctx.id ∧ t.index < ctx.types.size
  | .value v => v.ctx = ctx.id ∧ v.index < ctx.values.size
  | .block b => b.ctx = ctx.id ∧ b.index < ctx.blocks.size
  | .module m => m.ctx = ctx.id ∧ m.index < ctx.modules.size

theorem Has.mono {ctx ctx' : Context} {e : Entity} (id : ctx'.id = ctx.id)
    (types : ctx.types.size ≤ ctx'.types.size) (values : ctx.values.size ≤ ctx'.values.size)
    (blocks : ctx.blocks.size ≤ ctx'.blocks.size) (modules : ctx.modules.size ≤ ctx'.modules.size)
    (has : ctx.Has e) : ctx'.Has e := by
  cases e with
  | type => exact ⟨has.1.trans id.symm, Nat.lt_of_lt_of_le has.2 types⟩
  | value => exact ⟨has.1.trans id.symm, Nat.lt_of_lt_of_le has.2 values⟩
  | block => exact ⟨has.1.trans id.symm, Nat.lt_of_lt_of_le has.2 blocks⟩
  | module => exact ⟨has.1.trans id.symm, Nat.lt_of_lt_of_le has.2 modules⟩

end Context

namespace Pairing

open Checked (Echoed Mirrored)

/-- What can be read of the first context can be read of the second through the counterparts of its
handles. -/
structure Reflects (ρ : Pairing) (c₁ c : Context) : Prop where
  has : ∀ e e', ρ.pairs e e' → c₁.Has e ∧ c.Has e'
  shape : ∀ t t', ρ.Types t t' → Echoed ρ.Shapes (c₁.shape t) (c.shape t')
  value : ∀ v v', ρ.Values v v' → Echoed ρ.ValueRecords (c₁.value v) (c.value v')
  block : ∀ b b', ρ.Blocks b b' → Echoed ρ.BlockRecords (c₁.block b) (c.block b')
  module : ∀ m m', ρ.Modules m m' → Echoed ρ.ModuleRecords (c₁.module m) (c.module m')

/-- The counterparts are alive exactly when what they stand for is, and all types and values of the
first context have one. -/
structure Tracks (ρ : Pairing) (c₁ c : Context) : Prop extends Reflects ρ c₁ c where
  alive : ∀ v v' r', ρ.Values v v' → c.value v' = .ok r' → ∃ r, c₁.value v = .ok r
  blockAlive : ∀ b b' r', ρ.Blocks b b' → c.block b' = .ok r' → ∃ r, c₁.block b = .ok r
  moduleAlive : ∀ m m' r', ρ.Modules m m' → c.module m' = .ok r' → ∃ r, c₁.module m = .ok r
  allTypes : ∀ t s, c₁.shape t = .ok s → ∃ t', ρ.Types t t'
  allValues : ∀ v r, c₁.value v = .ok r → ∃ v', ρ.Values v v'

variable {ρ : Pairing} {c₁ c : Context}

namespace Reflects

variable (tracks : ρ.Reflects c₁ c)
include tracks

theorem shapes {t t' : TypeRef} (paired : ρ.Types t t') :
    ∃ s s', c₁.shape t = .ok s ∧ c.shape t' = .ok s' ∧ ρ.Shapes s s' := by
  obtain ⟨owner, inside⟩ := (tracks.has _ _ paired).1
  have read : c₁.shape t = .ok c₁.types[t.index] :=
    Context.shape_eq_ok.mpr ⟨owner, Array.getElem?_eq_getElem inside⟩
  obtain ⟨s', read', same⟩ := tracks.shape t t' paired _ read
  exact ⟨_, s', read, read', same⟩

theorem checkOwner {t t' : TypeRef} (paired : ρ.Types t t') :
    Echoed Eq (c₁.checkOwner .type t.ctx) (c.checkOwner .type t'.ctx) :=
  fun _ _ => ⟨(), Context.checkOwner_eq_ok.mpr (tracks.has _ _ paired).2.1, rfl⟩

/-! ### Typed reads -/

theorem valueType {v v' : ValueRef} (paired : ρ.Values v v') :
    Echoed ρ.Types (c₁.valueType v) (c.valueType v') :=
  (tracks.value v v' paired).bind fun _ _ same => .pure same.type

theorem valueName {v v' : ValueRef} (paired : ρ.Values v v') :
    Echoed Eq (c₁.valueName v) (c.valueName v') :=
  (tracks.value v v' paired).bind fun _ _ same => .pure same.name.symm

theorem function {f f' : FunctionRef} (paired : ρ.Through FunctionRef.value f f') :
    Echoed ρ.Functions (c₁.function f) (c.function f') := by
  refine (tracks.value _ _ paired).bind fun ⟨_, _, kind⟩ ⟨_, _, kind'⟩ same => ?_
  have kinds : ρ.Kinds kind kind' := same.kind
  cases kinds with
  | function record => exact .pure record
  | _ => exact .throw

theorem global {g g' : GlobalRef} (paired : ρ.Through GlobalRef.value g g') :
    Echoed ρ.Globals (c₁.global g) (c.global g') := by
  refine (tracks.value _ _ paired).bind fun ⟨_, _, kind⟩ ⟨_, _, kind'⟩ same => ?_
  have kinds : ρ.Kinds kind kind' := same.kind
  cases kinds with
  | global record => exact .pure record
  | _ => exact .throw

theorem instruction {i i' : InstructionRef} (paired : ρ.Through InstructionRef.value i i') :
    Echoed (fun r r' => ρ.Blocks r.parent r'.parent ∧ ρ.Operations r.operation r'.operation)
      (c₁.instruction i) (c.instruction i') := by
  refine (tracks.value _ _ paired).bind fun ⟨_, _, kind⟩ ⟨_, _, kind'⟩ same => ?_
  have kinds : ρ.Kinds kind kind' := same.kind
  cases kinds with
  | instruction parent operation => exact .pure ⟨parent, operation⟩
  | _ => exact .throw

theorem operation {i i' : InstructionRef} (paired : ρ.Through InstructionRef.value i i') :
    Echoed ρ.Operations (c₁.operation i) (c.operation i') :=
  (tracks.instruction paired).bind fun _ _ same => .pure same.2

theorem functionName {f f' : FunctionRef} (paired : ρ.Through FunctionRef.value f f') :
    Echoed Eq (c₁.functionName f) (c.functionName f') :=
  (tracks.valueName paired).bind fun _ _ same => .pure (same ▸ rfl)

theorem moduleName {m m' : ModuleRef} (paired : ρ.Modules m m') :
    Echoed Eq (c₁.moduleName m) (c.moduleName m') :=
  (tracks.module m m' paired).bind fun _ _ same => .pure same.name.symm

theorem integerBits {t t' : IntegerTypeRef} (paired : ρ.Types t.type t'.type) :
    Echoed Eq (c₁.integerBits t) (c.integerBits t') := by
  refine (tracks.shape _ _ paired).bind fun _ _ same => ?_
  cases same with
  | integer bits => exact .pure rfl
  | _ => exact .throw

theorem signature {t t' : FunctionTypeRef} (paired : ρ.Types t.type t'.type) :
    Echoed (fun s s' => ρ.Types s.1 s'.1 ∧ Forall₂ ρ.Types s.2.1 s'.2.1 ∧ s'.2.2 = s.2.2)
      (c₁.signature t) (c.signature t') := by
  refine (tracks.shape _ _ paired).bind fun _ _ same => ?_
  cases same with
  | function result params variadic => exact .pure ⟨result, params, rfl⟩
  | _ => exact .throw

end Reflects

namespace Tracks

theorem of_mirrored (has : ∀ e e', ρ.pairs e e' → c₁.Has e ∧ c.Has e')
    (shapes : ∀ t t', ρ.Types t t' → Echoed ρ.Shapes (c₁.shape t) (c.shape t'))
    (values : ∀ v v', ρ.Values v v' → Mirrored ρ.ValueRecords (c₁.value v) (c.value v'))
    (blocks : ∀ b b', ρ.Blocks b b' → Mirrored ρ.BlockRecords (c₁.block b) (c.block b'))
    (modules : ∀ m m', ρ.Modules m m' → Mirrored ρ.ModuleRecords (c₁.module m) (c.module m'))
    (allTypes : ∀ t s, c₁.shape t = .ok s → ∃ t', ρ.Types t t')
    (allValues : ∀ v r, c₁.value v = .ok r → ∃ v', ρ.Values v v') : ρ.Tracks c₁ c where
  has := has
  shape := shapes
  value v v' paired := (values v v' paired).echoed
  block b b' paired := (blocks b b' paired).echoed
  module m m' paired := (modules m m' paired).echoed
  alive v v' r' paired := (values v v' paired).back r'
  blockAlive b b' r' paired := (blocks b b' paired).back r'
  moduleAlive m m' r' paired := (modules m m' paired).back r'
  allTypes := allTypes
  allValues := allValues

variable (tracks : ρ.Tracks c₁ c)
include tracks

theorem values {v v' : ValueRef} (paired : ρ.Values v v') :
    Mirrored ρ.ValueRecords (c₁.value v) (c.value v') :=
  ⟨tracks.value v v' paired, fun r' => tracks.alive v v' r' paired⟩

theorem blocks {b b' : BlockRef} (paired : ρ.Blocks b b') :
    Mirrored ρ.BlockRecords (c₁.block b) (c.block b') :=
  ⟨tracks.block b b' paired, fun r' => tracks.blockAlive b b' r' paired⟩

theorem modules {m m' : ModuleRef} (paired : ρ.Modules m m') :
    Mirrored ρ.ModuleRecords (c₁.module m) (c.module m') :=
  ⟨tracks.module m m' paired, fun r' => tracks.moduleAlive m m' r' paired⟩

theorem function_origin {v : ValueRef} {f' : FunctionRef} {fr' : FunctionRecord}
    (paired : ρ.Values v f'.value) (known' : c.function f' = .ok fr') :
    ∃ fr, c₁.function ⟨v⟩ = .ok fr ∧ ρ.Functions fr fr' := by
  obtain ⟨value', read', kind'⟩ := Context.function_eq_ok.mp known'
  obtain ⟨value, read, same⟩ := (tracks.values paired).origin read'
  have kinds := same.kind
  rw [kind'] at kinds
  cases kind : value.kind with
  | function fr =>
    rw [kind] at kinds
    cases kinds with | function record =>
    exact ⟨fr, Context.function_eq_ok.mpr ⟨value, read, kind⟩, record⟩
  | _ => rw [kind] at kinds; cases kinds

end Tracks

/-! ### Shapes and operations -/

variable {s s' : Shape} {o o' : Operation}

theorem Shapes.isVoid (h : ρ.Shapes s s') : s'.isVoid = s.isVoid := by cases h <;> rfl

theorem Shapes.isFunction (h : ρ.Shapes s s') : s'.isFunction = s.isFunction := by cases h <;> rfl

theorem Shapes.isFirstClass (h : ρ.Shapes s s') : s'.isFirstClass = s.isFirstClass := by
  cases h <;> rfl

theorem Shapes.isPointee (h : ρ.Shapes s s') : s'.isPointee = s.isPointee := by cases h <;> rfl

theorem Shapes.eq_integer (h : ρ.Shapes s s') {bits : Nat} : s' = .integer bits ↔ s = .integer bits := by
  cases h <;> simp

theorem Operations.isTerminator (h : ρ.Operations o o') : o'.isTerminator = o.isTerminator := by
  cases h <;> rfl

theorem Operations.operands (h : ρ.Operations o o') :
    Forall₂ ρ.Values o.operands o'.operands := by
  cases h with
  | call callee args convention => exact List.rel_append args (.cons callee .nil)
  | ret value =>
    cases value with
    | some paired => exact .cons paired .nil
    | none => exact .nil
  | br target => exact .nil
  | condBr cond ifTrue ifFalse => exact .cons cond .nil

theorem Operations.successors (h : ρ.Operations o o') :
    Forall₂ ρ.Blocks o.successors o'.successors := by
  cases h with
  | br target => exact .cons target .nil
  | condBr cond ifTrue ifFalse => exact .cons ifTrue (.cons ifFalse .nil)
  | _ => exact .nil

end Pairing
end ModuleIR
