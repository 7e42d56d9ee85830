import ModuleIR.Proofs.Interleaving.Judgements

set_option autoImplicit false

/-!
# Alike both ways

A pairing can be read backwards, and so can the correspondence of records. What a context tracks is
alive exactly when its counterpart is, so that the tracked context reflects the tracking one as well:
a module and its counterpart have the same text, or both have none, and the verifier judges both
alike, or neither.
-/
namespace ModuleIR

open List (Forall₂)

open Checked (Echoed)

namespace Checked

variable {α β : Type} {R : α → β → Prop}

theorem Echoed.outcomes {x : Checked α} {y : Checked β} {S : β → α → Prop} (there : Echoed R x y)
    (back : Echoed S y x) : Option.Rel R x.toOption y.toOption := by
  cases x with
  | ok a =>
    obtain ⟨b, rfl, same⟩ := there a rfl
    exact .some same
  | error =>
    cases y with
    | ok b =>
      obtain ⟨a, read, _⟩ := back b rfl
      cases read
    | error => exact .none

end Checked

namespace Pairing

variable {ρ : Pairing}

def swap (ρ : Pairing) : Pairing where
  pairs e e' := ρ.pairs e' e
  unique := ⟨fun _ _ _ h h' => ρ.unique.2 h h', fun _ _ _ h h' => ρ.unique.1 h h'⟩
  kinds e e' paired := (ρ.kinds e' e paired).symm

/-! ### Records from the other side -/

theorem swap_list {α β : Type} {R : α → β → Prop} {S : β → α → Prop} (back : ∀ a b, R a b → S b a)
    {as : List α} {bs : List β} (listed : Forall₂ R as bs) : Forall₂ S bs as := by
  induction listed with
  | nil => exact .nil
  | cons head _ ih => exact .cons (back _ _ head) ih

theorem swap_option {α β : Type} {R : α → β → Prop} {S : β → α → Prop} (back : ∀ a b, R a b → S b a)
    {a : Option α} {b : Option β} (related : Option.Rel R a b) : Option.Rel S b a := by
  cases related with
  | none => exact .none
  | some related => exact .some (back _ _ related)

theorem Types.swap {t t' : TypeRef} (h : ρ.Types t t') : ρ.swap.Types t' t := h

theorem Values.swap {v v' : ValueRef} (h : ρ.Values v v') : ρ.swap.Values v' v := h

theorem Blocks.swap {b b' : BlockRef} (h : ρ.Blocks b b') : ρ.swap.Blocks b' b := h

theorem Modules.swap {m m' : ModuleRef} (h : ρ.Modules m m') : ρ.swap.Modules m' m := h

theorem Through.swap {α : Type} {value : α → ValueRef} {a a' : α} (h : ρ.Through value a a') :
    ρ.swap.Through value a' a := h

theorem Shapes.swap {s s' : Shape} (h : ρ.Shapes s s') : ρ.swap.Shapes s' s := by
  cases h with
  | void => exact .void
  | label => exact .label
  | integer bits => exact .integer bits
  | pointer pointee space => exact .pointer pointee.swap space
  | array element length => exact .array element.swap length
  | function result params variadic =>
    exact .function result.swap (swap_list (fun _ _ => Types.swap) params) variadic

theorem Operations.swap {o o' : Operation} (h : ρ.Operations o o') : ρ.swap.Operations o' o := by
  cases h with
  | call callee args convention => exact .call callee.swap (swap_list (fun _ _ => Values.swap) args) convention
  | ret value => exact .ret (swap_option (fun _ _ => Values.swap) value)
  | br target => exact .br target.swap
  | condBr cond ifTrue ifFalse => exact .condBr cond.swap ifTrue.swap ifFalse.swap

theorem Symbols.swap {x x' : Symbol} (h : ρ.Symbols x x') : ρ.swap.Symbols x' x := by
  cases h with
  | value paired => exact .value paired.swap
  | block paired => exact .block paired.swap

theorem Tables.swap {t t' : NameTable} (h : ρ.Tables t t') : ρ.swap.Tables t' t :=
  ⟨h.separator.symm, h.lastSuffix.symm,
    swap_list (fun _ _ ⟨same, symbols⟩ => ⟨same.symm, symbols.swap⟩) h.entries⟩

theorem ElementPtrs.swap {e e' : ElementPtrRecord} (h : ρ.ElementPtrs e e') :
    ρ.swap.ElementPtrs e' e :=
  ⟨h.sourceType.swap, h.base.swap, swap_list (fun _ _ => Values.swap) h.indices, h.inBounds.symm⟩

theorem Globals.swap {g g' : GlobalRecord} (h : ρ.Globals g g') : ρ.swap.Globals g' g :=
  ⟨h.module.swap, h.valueType.swap, h.isConstant.symm, h.linkage.symm,
    swap_option (fun _ _ => Through.swap) h.initializer, h.threadLocal.symm, h.space.symm,
    h.externallyInitialized.symm⟩

theorem Functions.swap {f f' : FunctionRecord} (h : ρ.Functions f f') : ρ.swap.Functions f' f :=
  ⟨h.module.swap, h.signature.swap, h.linkage.symm, h.convention.symm,
    swap_list (fun _ _ => Through.swap) h.args, swap_list (fun _ _ => Blocks.swap) h.blocks,
    h.names.swap⟩

theorem Kinds.swap {k k' : ValueKind} (h : ρ.Kinds k k') : ρ.swap.Kinds k' k := by
  cases h with
  | int n => exact .int n
  | bytes content => exact .bytes content
  | elementPtr record => exact .elementPtr record.swap
  | global record => exact .global record.swap
  | function record => exact .function record.swap
  | argument parent position => exact .argument parent.swap position
  | instruction parent operation => exact .instruction parent.swap operation.swap

theorem ValueRecords.swap {r r' : ValueRecord} (h : ρ.ValueRecords r r') :
    ρ.swap.ValueRecords r' r := ⟨h.type.swap, h.name.symm, h.kind.swap⟩

theorem BlockRecords.swap {r r' : BlockRecord} (h : ρ.BlockRecords r r') :
    ρ.swap.BlockRecords r' r :=
  ⟨h.name.symm, swap_option (fun _ _ => Through.swap) h.parent,
    swap_list (fun _ _ => Through.swap) h.instructions⟩

theorem ModuleRecords.swap {r r' : ModuleRecord} (h : ρ.ModuleRecords r r') :
    ρ.swap.ModuleRecords r' r :=
  ⟨h.name.symm, swap_list (fun _ _ => Through.swap) h.globals,
    swap_list (fun _ _ => Through.swap) h.functions, h.names.swap⟩

end Pairing

/-! ### Outcomes -/

/-- Modules of two contexts which their users cannot tell apart: they have the same text, if any, and
the verifier gives both the same verdict, if any. -/
structure SameModule (c₁ : Context) (m : ModuleRef) (c : Context) (m' : ModuleRef) : Prop where
  text : (c.moduleText m').toOption = (c₁.moduleText m).toOption
  verdict : Option.Rel SameVerdict (c₁.verifyModule m).toOption (c.verifyModule m').toOption

namespace Pairing.Tracks

variable {ρ : Pairing} {c₁ c : Context} (tracks : ρ.Tracks c₁ c)
include tracks

theorem swap : ρ.swap.Reflects c c₁ where
  has e e' paired := (tracks.has e' e paired).symm
  shape t' t paired s' read' := by
    obtain ⟨s, s'', read, read'', same⟩ := tracks.shapes paired
    obtain rfl := Checked.unique read' read''
    exact ⟨s, read, same.swap⟩
  value v' v paired r' read' := by
    obtain ⟨r, read, same⟩ := (tracks.values paired).origin read'
    exact ⟨r, read, same.swap⟩
  block b' b paired r' read' := by
    obtain ⟨r, read, same⟩ := (tracks.blocks paired).origin read'
    exact ⟨r, read, same.swap⟩
  module m' m paired r' read' := by
    obtain ⟨r, read, same⟩ := (tracks.modules paired).origin read'
    exact ⟨r, read, same.swap⟩

/-- A module that is tracked is the same as its counterpart. -/
theorem sameModule (wf₁ : c₁.WellFormed) (wf : c.WellFormed) {m m' : ModuleRef}
    (paired : ρ.Modules m m') : SameModule c₁ m c m' where
  text := by
    have texts := (tracks.moduleText wf paired).outcomes (tracks.swap.moduleText wf₁ paired)
    generalize (c₁.moduleText m).toOption = text, (c.moduleText m').toOption = text' at texts
    cases texts with
    | none => rfl
    | some same => rw [same]
  verdict := (tracks.verifyModule wf paired).outcomes (tracks.swap.verifyModule wf₁ paired)

end Pairing.Tracks
end ModuleIR
