import ModuleIR.Proofs.Interleaving.Accessors
import ModuleIR.Proofs.Interleaving.Bodies
import ModuleIR.Proofs.Interleaving.Erasing

set_option autoImplicit false

/-!
# Commands that match

A command that succeeds in the context of one user alone succeeds in the shared context, and gives the
counterparts of the handles that it gives there. For a request this is put together of the steps that
follow each other, and for an accessor of the reads that are echoed.
-/
namespace ModuleIR

open List (Forall₂)

open Checked (Echoed)

open Context

/-! ### What is found by numbers -/

section Found

variable {α β γ δ : Type} {R : α → β → Prop} {S : γ → δ → Prop}

def Found (R : α → β → Prop) (x : Option α) (y : Option β) : Prop :=
  ∀ a, x = some a → ∃ b, y = some b ∧ R a b

namespace Found

theorem pure {a : α} {b : β} (h : R a b) : Found R (Pure.pure a) (Pure.pure b) := by
  rintro _ ⟨⟩
  exact ⟨b, rfl, h⟩

theorem bind {x : Option α} {y : Option β} {f : α → Option γ} {g : β → Option δ}
    (first : Found R x y) (next : ∀ a b, R a b → Found S (f a) (g b)) :
    Found S (x >>= f) (y >>= g) := by
  intro c found
  obtain ⟨a, here, rest⟩ := Option.bind_eq_some_iff.mp found
  obtain ⟨b, there, same⟩ := first a here
  obtain ⟨d, rest', corresponds⟩ := next a b same c rest
  exact ⟨d, Option.bind_eq_some_iff.mpr ⟨b, there, rest'⟩, corresponds⟩

theorem map {x : Option α} {y : Option β} {f : α → γ} {g : β → δ} (first : Found R x y)
    (next : ∀ a b, R a b → S (f a) (g b)) : Found S (x.map f) (y.map g) := by
  intro c found
  obtain ⟨a, here, rfl⟩ := Option.map_eq_some_iff.mp found
  obtain ⟨b, there, same⟩ := first a here
  exact ⟨g b, Option.map_eq_some_iff.mpr ⟨b, there, rfl⟩, next a b same⟩

theorem guarded {p : Prop} [Decidable p] {a : α} {b : β} (h : R a b) :
    Found R (if p then some a else none) (if p then some b else none) := by
  split
  · exact pure h
  · exact nofun

variable {f : γ → Option α} {g : γ → Option β}

theorem list (each : ∀ c, Found R (f c) (g c)) (cs : List γ) :
    Found (Forall₂ R) (cs.mapM f) (cs.mapM g) := by
  induction cs with
  | nil => exact pure .nil
  | cons c cs ih =>
    rw [List.mapM_cons, List.mapM_cons]
    exact (each c).bind fun _ _ head => ih.bind fun _ _ rest => pure (.cons head rest)

theorem option (each : ∀ c, Found R (f c) (g c)) (o : Option γ) :
    Found (Option.Rel R) (o.mapM f) (o.mapM g) := by
  cases o with
  | none => exact pure .none
  | some c => exact (each c).map fun _ _ same => .some same

end Found

end Found

namespace Pairing

variable {ρ ρ₂ : Pairing} {c₁ c₂ c : Context}

section Known

variable {known known' : List Handle} (paired : Forall₂ ρ.Handles known known')
include paired

theorem found_number {α : Type} {R : α → α → Prop} {kind : Handle → Option α}
    (each : ∀ h h', ρ.Handles h h' → Found R (kind h) (kind h')) (k : Nat) :
    Found R (known[k]?.bind kind) (known'[k]?.bind kind) := by
  have numbered := rel_getElem? paired k
  generalize known[k]? = h, known'[k]? = h' at numbered
  cases numbered with
  | none => exact nofun
  | some same => exact each _ _ same

theorem found_typeAt (view : TypeView) (k : Nat) :
    Found ρ.Types (typeAt known view k) (typeAt known' view k) := by
  refine found_number paired (fun h h' same => ?_) k
  cases same with
  | type view' types => exact .guarded types
  | _ => exact nofun

theorem found_valueAt (view : ValueView) (k : Nat) :
    Found ρ.Values (valueAt known view k) (valueAt known' view k) := by
  refine found_number paired (fun h h' same => ?_) k
  cases same with
  | value view' values => exact .guarded values
  | _ => exact nofun

theorem found_blockAt (k : Nat) : Found ρ.Blocks (blockAt known k) (blockAt known' k) := by
  refine found_number paired (fun h h' same => ?_) k
  cases same with
  | block blocks => exact .pure blocks
  | _ => exact nofun

theorem found_moduleAt (k : Nat) : Found ρ.Modules (moduleAt known k) (moduleAt known' k) := by
  refine found_number paired (fun h h' same => ?_) k
  cases same with
  | module modules => exact .pure modules
  | _ => exact nofun

theorem found_constantAt (k : Nat) :
    Found (ρ.Through ConstantRef.value) (constantAt known k) (constantAt known' k) :=
  (found_valueAt paired .constant k).map fun _ _ same => same

theorem found_globalAt (k : Nat) :
    Found (ρ.Through GlobalRef.value) (globalAt known k) (globalAt known' k) :=
  (found_valueAt paired .global k).map fun _ _ same => same

theorem found_functionAt (k : Nat) :
    Found (ρ.Through FunctionRef.value) (functionAt known k) (functionAt known' k) :=
  (found_valueAt paired .function k).map fun _ _ same => same

end Known

/-! ### Requests -/

/-- Wherever the first step succeeds in the user's own context, the second does in the shared one, and
answers the counterparts. -/
def Matches (ρ ρ₂ : Pairing) (c₁ c₂ c : Context) (step step' : Build (List Handle)) : Prop :=
  ∀ answers c₁', (step c₁).result = .ok (answers, c₁') → ∃ answers' c',
    (step' c).result = .ok (answers', c') ∧ ∃ ρ', ρ ≤ ρ' ∧ SideBySide ρ' ρ₂ c₁' c₂ c' ∧
      Forall₂ ρ'.Handles answers answers'

theorem Follows.answer {α : Type} {step step' : Build α} {handle : α → Handle}
    {R : Pairing → Context → α → α → Prop} (follows : Follows ρ ρ₂ c₁ c₂ c step step' R)
    (handles : ∀ ρ' c₁' a b, R ρ' c₁' a b → Handles ρ' (handle a) (handle b)) :
    Matches ρ ρ₂ c₁ c₂ c (do return [handle (← step)]) (do return [handle (← step')]) := by
  intro answers c₁' run
  obtain ⟨a, success, rfl⟩ := Request.answer_eq_ok run
  obtain ⟨b, c', success', ρ', sub, side, _, same⟩ := follows a c₁' success
  exact ⟨_, c', Build.bind_eq_ok.mpr ⟨b, c', success', rfl⟩, ρ', sub, side,
    .cons (handles ρ' c₁' a b same) .nil⟩

theorem Follows.silent {step step' : Build Unit} {R : Pairing → Context → Unit → Unit → Prop}
    (follows : Follows ρ ρ₂ c₁ c₂ c step step' R) :
    Matches ρ ρ₂ c₁ c₂ c (do step; return []) (do step'; return []) := by
  intro answers c₁' run
  obtain ⟨success, rfl⟩ := Request.silent_eq_ok run
  obtain ⟨_, c', success', ρ', sub, side, _, _⟩ := follows () c₁' success
  exact ⟨[], c', Build.bind_eq_ok.mpr ⟨(), c', success', rfl⟩, ρ', sub, side, .nil⟩

theorem SideBySide.eraseModule (s : SideBySide ρ ρ₂ c₁ c₂ c) (wf₁ : c₁.WellFormed)
    (wf₂ : c₂.WellFormed) (wf : c.WellFormed) (distinct₁ : c₁.Distinct) (distinct : c.Distinct)
    {m m' : ModuleRef} (modules : ρ.Modules m m') :
    Matches ρ ρ₂ c₁ c₂ c (do Build.eraseModule m; return []) (do Build.eraseModule m'; return []) := by
  intro answers c₁' run
  obtain ⟨erased₁, rfl⟩ := Request.silent_eq_ok run
  obtain ⟨⟨r, read⟩, erases₁, wf₁'⟩ := Build.eraseModule_spec wf₁ erased₁
  obtain ⟨r', read', _⟩ := s.left.module m m' modules r read
  obtain ⟨c', erased, erases⟩ := Build.eraseModule_runs wf read'
  have distinct₁' : c₁'.Distinct := distinct₁.sublist ((Build.eraseModule_entries erased₁).map _)
  have distinct' : c'.Distinct := distinct.sublist ((Build.eraseModule_entries erased).map _)
  have side := s.erase wf₁ wf₂ wf modules erases₁ erases (wf₁'.toTabled distinct₁')
    ((erases.wellFormed wf).toTabled distinct')
  exact ⟨[], c', Build.bind_eq_ok.mpr ⟨(), c', erased, rfl⟩, ρ, le_refl ρ, side, .nil⟩

section Commands

variable (s : SideBySide ρ ρ₂ c₁ c₂ c) (wf₁ : c₁.WellFormed) (wf₂ : c₂.WellFormed)
  (wf : c.WellFormed) (distinct₁ : c₁.Distinct) (distinct : c.Distinct)
  {known known' : List Handle} (paired : Forall₂ ρ.Handles known known')
include s wf₁ wf₂ wf distinct₁ distinct paired

/-- A request made with handles that stand for each other is answered alike. -/
theorem matches_request (numbered : Request) :
    Found (fun request request' => Matches ρ ρ₂ c₁ c₂ c request.run request'.run)
      (numbered.resolve known) (numbered.resolve known') := by
  cases numbered with
  | voidType => exact .pure ((Follows.voidType s).answer fun _ _ _ _ => .type _)
  | labelType => exact .pure ((Follows.labelType s).answer fun _ _ _ _ => .type _)
  | integerType bits =>
    exact .pure ((Follows.integerType s bits).answer fun _ _ _ _ same => .type _ same.1)
  | pointerType t space =>
    refine (found_typeAt paired _ _).bind fun t t' types => .pure ?_
    exact (Follows.pointerType s types space).answer fun _ _ _ _ => .type _
  | arrayType t length =>
    refine (found_typeAt paired _ _).bind fun t t' types => .pure ?_
    exact (Follows.arrayType s types length).answer fun _ _ _ _ same => .type _ same.1
  | functionType result params variadic =>
    refine (found_typeAt paired _ _).bind fun t t' types => ?_
    refine (Found.list (fun _ => found_typeAt paired _ _) params).bind fun ts ts' same => .pure ?_
    exact (Follows.functionType s types same variadic).answer fun _ _ _ _ => .type _
  | constantInt n built =>
    exact .pure ((Follows.constantInt s n).answer fun _ _ _ _ => .value _)
  | constantSigned t value =>
    refine (found_typeAt paired _ _).bind fun t t' types => .pure ?_
    have words : ρ.Types (IntegerTypeRef.mk t).type (IntegerTypeRef.mk t').type := types
    exact (Follows.constantSigned s words value).answer fun _ _ _ _ => .value _
  | constantBool value =>
    exact .pure ((Follows.constantBool s value).answer fun _ _ _ _ => .value _)
  | constantString text addNull =>
    exact .pure ((Follows.constantString s text addNull).answer fun _ _ _ _ => .value _)
  | elementPtr base indices inBounds =>
    refine (found_constantAt paired _).bind fun k k' bases => ?_
    refine (Found.list (fun _ => found_constantAt paired _) indices).bind fun ks ks' same => .pure ?_
    exact (Follows.elementPtr s bases same inBounds).answer fun _ _ _ _ => .value _
  | createModule name => exact .pure ((Follows.createModule s name).answer fun _ _ _ _ => .module)
  | eraseModule m =>
    refine (found_moduleAt paired _).bind fun m m' modules => .pure ?_
    exact s.eraseModule wf₁ wf₂ wf distinct₁ distinct modules
  | createGlobal m spec =>
    refine (found_moduleAt paired _).bind fun m m' modules => ?_
    refine (found_typeAt paired _ _).bind fun t t' types => ?_
    refine (Found.option (fun _ => found_constantAt paired _) spec.initializer).bind
      fun init init' inits => ?_
    refine (Found.option (fun _ => found_globalAt paired _) spec.before).bind
      fun sibling sibling' siblings => .pure ?_
    have specs : ρ.GlobalSpecs { spec with type := t, initializer := init, before := sibling }
        { spec with type := t', initializer := init', before := sibling' } :=
      ⟨types, rfl, rfl, inits, rfl, siblings, rfl, rfl, rfl⟩
    exact (Follows.createGlobal s modules specs).answer fun _ _ _ _ => .value _
  | setInitializer g initializer =>
    refine (found_globalAt paired _).bind fun g g' globals => ?_
    refine (Found.option (fun _ => found_constantAt paired _) initializer).bind
      fun init init' inits => .pure ?_
    exact (Follows.setInitializer s globals inits).silent
  | setGlobalLinkage g linkage =>
    refine (found_globalAt paired _).bind fun g g' globals => .pure ?_
    exact (Follows.setGlobalLinkage s globals linkage).silent
  | globalString m text name =>
    refine (found_moduleAt paired _).bind fun m m' modules => .pure ?_
    exact (Follows.globalString s modules text name).answer fun _ _ _ _ => .value _
  | createFunction signature linkage name m =>
    refine (found_typeAt paired _ _).bind fun t t' types => ?_
    refine (found_moduleAt paired _).bind fun m m' modules => .pure ?_
    have signatures : ρ.Types (FunctionTypeRef.mk t).type (FunctionTypeRef.mk t').type := types
    exact (Follows.createFunction s signatures linkage name modules).answer fun _ _ _ _ => .value _
  | setFunctionLinkage f linkage =>
    refine (found_functionAt paired _).bind fun f f' functions => .pure ?_
    exact (Follows.setFunctionLinkage s functions linkage).silent
  | setFunctionConvention f convention =>
    refine (found_functionAt paired _).bind fun f f' functions => .pure ?_
    exact (Follows.setFunctionConvention s functions convention).silent
  | setValueName v name =>
    refine (found_valueAt paired _ _).bind fun v v' values => .pure ?_
    exact (Follows.setValueName s values name).silent
  | setBlockName b name =>
    refine (found_blockAt paired _).bind fun b b' blocks => .pure ?_
    exact (Follows.setBlockName s blocks name).silent
  | createBlock name parent before =>
    refine (Found.option (fun _ => found_functionAt paired _) parent).bind fun f f' parents => ?_
    refine (Found.option (fun _ => found_blockAt paired _) before).bind fun d d' befores => .pure ?_
    exact (Follows.createBlock s name parents befores).answer fun _ _ _ _ => .block
  | insertBlock b f before =>
    refine (found_blockAt paired _).bind fun b b' blocks => ?_
    refine (found_functionAt paired _).bind fun f f' functions => ?_
    refine (Found.option (fun _ => found_blockAt paired _) before).bind fun d d' befores => .pure ?_
    exact (Follows.insertBlock s blocks functions befores).silent
  | createCall callee args name b =>
    refine (found_valueAt paired _ _).bind fun v v' callees => ?_
    refine (Found.list (fun _ => found_valueAt paired _ _) args).bind fun vs vs' same => ?_
    refine (found_blockAt paired _).bind fun b b' blocks => .pure ?_
    exact (Follows.createCall s callees same name blocks).answer fun _ _ _ _ => .value _
  | createReturn value b =>
    refine (Found.option (fun _ => found_valueAt paired _ _) value).bind fun v v' values => ?_
    refine (found_blockAt paired _).bind fun b b' blocks => .pure ?_
    exact (Follows.createReturn s values blocks).answer fun _ _ _ _ => .value _
  | createBranch target b =>
    refine (found_blockAt paired _).bind fun a a' targets => ?_
    refine (found_blockAt paired _).bind fun b b' blocks => .pure ?_
    exact (Follows.createBranch s targets blocks).answer fun _ _ _ _ => .value _
  | createCondBranch cond ifTrue ifFalse b =>
    refine (found_valueAt paired _ _).bind fun v v' conds => ?_
    refine (found_blockAt paired _).bind fun a a' yes => ?_
    refine (found_blockAt paired _).bind fun d d' no => ?_
    refine (found_blockAt paired _).bind fun b b' blocks => .pure ?_
    exact (Follows.createCondBranch s conds yes no blocks).answer fun _ _ _ _ => .value _
  | setCallConvention k convention =>
    refine (found_valueAt paired _ _).bind fun v v' values => .pure ?_
    have calls : ρ.Through CallRef.value ⟨v⟩ ⟨v'⟩ := values
    exact (Follows.setCallConvention s calls convention).silent

/-- A command that succeeds alone succeeds in the shared context, with the same answers. -/
theorem matches_command (command : Command) :
    Found (fun done done' => ∃ ρ', ρ ≤ ρ' ∧ SideBySide ρ' ρ₂ done.2 c₂ done'.2 ∧
        Forall₂ ρ'.Handles done.1 done'.1) (command.run known c₁) (command.run known' c) := by
  cases command with
  | request numbered =>
    refine (matches_request s wf₁ wf₂ wf distinct₁ distinct paired numbered).bind ?_
    rintro request request' runs ⟨answers, c₁'⟩ ran
    obtain ⟨answers', c', ran', onward⟩ := runs answers c₁' (Checked.toOption_eq_some.mp ran)
    exact ⟨(answers', c'), Checked.toOption_eq_some.mpr ran', onward⟩
  | access k accessor =>
    have numbered : Found ρ.Handles known[k]? known'[k]? := fun h stored => by
      have same := rel_getElem? paired k
      rw [stored] at same
      generalize known'[k]? = found at same
      cases same with | some same => exact ⟨_, rfl, same⟩
    refine numbered.bind fun h h' handles => ?_
    have got : Found (Option.Rel ρ.Handles) (accessor.get c₁ h).toOption (accessor.get c h').toOption :=
      fun given read => by
        obtain ⟨given', read', same⟩ := s.left.get accessor handles given
          (Checked.toOption_eq_some.mp read)
        exact ⟨given', Checked.toOption_eq_some.mpr read', same⟩
    refine got.bind fun given given' same => .pure ⟨ρ, le_refl ρ, s, ?_⟩
    cases same with
    | none => exact .nil
    | some same => exact .cons same .nil

end Commands
end Pairing
end ModuleIR
