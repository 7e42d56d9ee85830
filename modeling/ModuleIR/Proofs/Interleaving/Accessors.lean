import ModuleIR.Proofs.Interleaving.Naming
import ModuleIR.Proofs.Interleaving.Sessions

set_option autoImplicit false

/-!
# Accessors alike

Records that correspond hold, one by one, handles that stand for each other, and names are found alike.
So an accessor gives of a handle the counterpart of what it gives of the handle that it stands for.
-/
namespace ModuleIR

open List (Forall₂)

open Checked (Echoed)

namespace Pairing

variable {ρ : Pairing}

/-! ### Handles in records -/

theorem handles_values (view : ValueView) {vs vs' : List ValueRef} (listed : Forall₂ ρ.Values vs vs') :
    Forall₂ ρ.Handles (vs.map (.value view)) (vs'.map (.value view)) :=
  List.rel_map (fun _ _ paired => .value view paired) listed

theorem handles_blocks {bs bs' : List BlockRef} (listed : Forall₂ ρ.Blocks bs bs') :
    Forall₂ ρ.Handles (bs.map .block) (bs'.map .block) :=
  List.rel_map (fun _ _ paired => .block paired) listed

section Through

variable {α : Type} {value : α → ValueRef} (view : ValueView)

theorem handles_through {as as' : List α} (listed : Forall₂ (ρ.Through value) as as') :
    Forall₂ ρ.Handles (as.map fun a => .value view (value a))
      (as'.map fun a => .value view (value a)) :=
  List.rel_map (fun _ _ paired => .value view paired) listed

theorem handles_option {o o' : Option α} (related : Option.Rel (ρ.Through value) o o') :
    Forall₂ ρ.Handles (o.toList.map fun a => .value view (value a))
      (o'.toList.map fun a => .value view (value a)) := by
  cases related with
  | none => exact .nil
  | some same => exact .cons (.value view same) .nil

end Through

theorem Symbols.handles {x x' : Symbol} (h : ρ.Symbols x x') : ρ.Handles x.handle x'.handle := by
  cases h with
  | value paired => exact .value _ paired
  | block paired => exact .block paired

theorem Tables.handles {t t' : NameTable} (h : ρ.Tables t t') :
    Forall₂ ρ.Handles t.handles t'.handles :=
  List.rel_map (fun _ _ entries => entries.2.handles) h.entries

theorem Operations.handles {o o' : Operation} (h : ρ.Operations o o') :
    Forall₂ ρ.Handles o.handles o'.handles :=
  List.rel_append (handles_values .any h.operands) (handles_blocks h.successors)

theorem Kinds.handles {k k' : ValueKind} (h : ρ.Kinds k k') :
    Forall₂ ρ.Handles k.handles k'.handles := by
  cases h with
  | int | bytes => exact .nil
  | elementPtr record =>
    exact .cons (.type .any record.sourceType) (.cons (.value .any record.base)
      (handles_values .any record.indices))
  | global record =>
    exact .cons (.module record.module) (.cons (.type .any record.valueType)
      (handles_option .constant record.initializer))
  | function record =>
    have args := handles_through .argument record.args
    exact .cons (.module record.module) (.cons (.type .function record.signature)
      (List.rel_append (List.rel_append args (handles_blocks record.blocks)) record.names.handles))
  | argument parent position => exact .cons (.value .function parent) .nil
  | instruction parent operation => exact .cons (.block parent) operation.handles

theorem BlockRecords.handles {r r' : BlockRecord} (h : ρ.BlockRecords r r') :
    Forall₂ ρ.Handles r.handles r'.handles :=
  List.rel_append (handles_option .function h.parent) (handles_through .instruction h.instructions)

theorem ModuleRecords.handles {r r' : ModuleRecord} (h : ρ.ModuleRecords r r') :
    Forall₂ ρ.Handles r.handles r'.handles :=
  List.rel_append (List.rel_append (handles_through .global h.globals)
    (handles_through .function h.functions)) h.names.handles

theorem rel_getElem? {α β : Type} {R : α → β → Prop} {as : List α} {bs : List β}
    (listed : Forall₂ R as bs) (k : Nat) : Option.Rel R as[k]? bs[k]? := by
  induction listed generalizing k with
  | nil => exact .none
  | cons head _ ih =>
    cases k with
    | zero => exact .some head
    | succ k => exact ih k

/-! ### Views -/

theorem Shapes.accepts {s s' : Shape} (h : ρ.Shapes s s') (view : TypeView) :
    view.accepts s' = view.accepts s := by
  cases h <;> cases view <;> rfl

theorem Kinds.accepts {k k' : ValueKind} (h : ρ.Kinds k k') (view : ValueView) :
    view.accepts k' = view.accepts k := by
  cases h with
  | instruction parent operation => cases operation <;> cases view <;> rfl
  | _ => cases view <;> rfl

namespace Reflects

variable {c₁ c : Context} (tracks : ρ.Reflects c₁ c)
include tracks

theorem findFunction? {m m' : ModuleRef} (paired : ρ.Modules m m') (name : String) :
    Echoed (Option.Rel (ρ.Through FunctionRef.value)) (c₁.findFunction? m name)
      (c.findFunction? m' name) := by
  refine (tracks.module m m' paired).bind fun r r' records => ?_
  have found := records.names.find? name
  generalize r.names.find? name = x, r'.names.find? name = x' at found
  cases found with
  | none => exact .pure .none
  | some symbols =>
    cases symbols with
    | block => exact .pure .none
    | value values =>
      refine (tracks.value _ _ values).bind fun ⟨_, _, kind⟩ ⟨_, _, kind'⟩ same => ?_
      have kinds : ρ.Kinds kind kind' := same.kind
      cases kinds with
      | function => exact .pure (.some values)
      | _ => exact .pure .none

theorem findGlobal? {m m' : ModuleRef} (paired : ρ.Modules m m') (name : String) :
    Echoed (Option.Rel (ρ.Through GlobalRef.value)) (c₁.findGlobal? m name)
      (c.findGlobal? m' name) := by
  refine (tracks.module m m' paired).bind fun r r' records => ?_
  have found := records.names.find? name
  generalize r.names.find? name = x, r'.names.find? name = x' at found
  cases found with
  | none => exact .pure .none
  | some symbols =>
    cases symbols with
    | block => exact .pure .none
    | value values =>
      refine (tracks.value _ _ values).bind fun ⟨_, _, kind⟩ ⟨_, _, kind'⟩ same => ?_
      have kinds : ρ.Kinds kind kind' := same.kind
      cases kinds with
      | global => exact .pure (.some values)
      | _ => exact .pure .none

theorem callSignature {v v' : ValueRef} (paired : ρ.Values v v') :
    Echoed (fun t t' => ρ.Types t.type t'.type) (c₁.callSignature v) (c.callSignature v') := by
  refine (tracks.calleeSignature? paired).bind fun _ _ found => ?_
  cases found with
  | none => exact .throw
  | some types => exact .pure types

/-- What an accessor gives of a handle stands for what it gives of the handle's counterpart. -/
theorem get (accessor : Accessor) {h h' : Handle} (paired : ρ.Handles h h') :
    Echoed (Option.Rel ρ.Handles) (accessor.get c₁ h) (accessor.get c h') := by
  cases paired with
  | type known types =>
    cases accessor with
    | typeView view =>
      refine .ite .rfl (fun _ => .pure (.some (.type _ types))) fun _ => ?_
      refine (tracks.shape _ _ types).bind fun q q' shapes => .pure ?_
      rw [shapes.accepts]
      split
      · exact .some (.type _ types)
      · exact .none
    | innerType k =>
      refine (tracks.shape _ _ types).bind fun q q' shapes => .pure ?_
      have inner := rel_getElem? shapes.inner k
      generalize q.inner[k]? = t, q'.inner[k]? = t' at inner
      cases inner with
      | none => exact .none
      | some types => exact .some (.type _ types)
    | _ => exact .pure .none
  | value known values =>
    cases accessor with
    | valueView view =>
      refine .ite .rfl (fun _ => .pure (.some (.value _ values))) fun _ => ?_
      refine (tracks.value _ _ values).bind fun r r' records => .pure ?_
      rw [records.kind.accepts]
      split
      · exact .some (.value _ values)
      · exact .none
    | valueType =>
      exact (tracks.value _ _ values).bind fun r r' records => .pure (.some (.type _ records.type))
    | content k =>
      exact (tracks.value _ _ values).bind fun r r' records =>
        .pure (rel_getElem? records.kind.handles k)
    | calledType =>
      cases known with
      | call =>
        have calls : ρ.Through InstructionRef.value ⟨_⟩ ⟨_⟩ := values
        refine (tracks.operation calls).bind fun o o' operations => ?_
        cases operations with
        | call callee =>
          exact (tracks.callSignature callee).bind fun _ _ types => .pure (.some (.type _ types))
        | _ => exact .pure .none
      | _ => exact .pure .none
    | _ => exact .pure .none
  | block blocks =>
    cases accessor with
    | content k =>
      exact (tracks.block _ _ blocks).bind fun r r' records => .pure (rel_getElem? records.handles k)
    | _ => exact .pure .none
  | module modules =>
    cases accessor with
    | content k =>
      exact (tracks.module _ _ modules).bind fun r r' records =>
        .pure (rel_getElem? records.handles k)
    | findFunction name =>
      refine (tracks.findFunction? modules name).bind fun f f' found => .pure ?_
      cases found with
      | none => exact .none
      | some functions => exact .some (.value _ functions)
    | findGlobal name =>
      refine (tracks.findGlobal? modules name).bind fun g g' found => .pure ?_
      cases found with
      | none => exact .none
      | some globals => exact .some (.value _ globals)
    | _ => exact .pure .none

end Reflects
end Pairing
end ModuleIR
