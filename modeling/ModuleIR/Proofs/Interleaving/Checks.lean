import ModuleIR.Proofs.Arena.Anchoring
import ModuleIR.Proofs.Interleaving.Tracking

set_option autoImplicit false

/-!
# Checking alike

The checks that requests begin with, of one context and of another that tracks it. What passes in the
one passes in the other. A fault of scope names its operand by its place in the arena when the operand
has no name; the faults of the two contexts are the same but for that number.
-/
namespace ModuleIR

open List (Forall₂)

def OperandLabel.unnumbered (l : OperandLabel) : OperandLabel := { l with index := 0 }

def ScopeFault.unnumbered : ScopeFault → ScopeFault
  | otherModule operand owner user => otherModule operand.unnumbered owner user
  | otherFunction operand owner user => otherFunction operand.unnumbered owner user
  | outsideFunction operand owner => outsideFunction operand.unnumbered owner
  | detached operand => detached operand.unnumbered

/-- The same fault but for the places of operands in the arena. -/
def ScopeFault.Alike (fault fault' : ScopeFault) : Prop := fault'.unnumbered = fault.unnumbered

namespace Pairing

open Checked (Echoed)

inductive Scopes (ρ : Pairing) : NameScope → NameScope → Prop
  | module {m m' : ModuleRef} (paired : ρ.Modules m m') : Scopes ρ (.module m) (.module m')
  | function {f f' : FunctionRef} (paired : ρ.Through FunctionRef.value f f') :
      Scopes ρ (.function f) (.function f')
  | detached : Scopes ρ .detached .detached

variable {ρ : Pairing} {c₁ c : Context}

namespace Reflects

variable (tracks : ρ.Reflects c₁ c)
include tracks

/-! ### Scope -/

theorem anchored {v v' : ValueRef} {anchor : Anchor} (paired : ρ.Values v v')
    (home : c₁.Anchored v anchor) : ∃ anchor', c.Anchored v' anchor' ∧ ρ.Anchors anchor anchor' := by
  induction home generalizing v' with
  | @elementPtr v r e anchor read kind base ih =>
    obtain ⟨r', read', same⟩ := tracks.value v v' paired r read
    obtain ⟨type, name, kind'⟩ := r'
    have kinds : ρ.Kinds (.elementPtr e) kind' := kind ▸ same.kind
    cases kinds with | @elementPtr _ e' record =>
    obtain ⟨anchor', base', homes⟩ := ih record.base
    exact ⟨anchor', .elementPtr read' rfl base', homes⟩
  | @global v r g read kind =>
    obtain ⟨⟨type, name, kind'⟩, read', same⟩ := tracks.value v v' paired r read
    have kinds : ρ.Kinds (.global g) kind' := kind ▸ same.kind
    cases kinds with | global record => exact ⟨_, .global read' rfl, .module record.module⟩
  | @function v r f read kind =>
    obtain ⟨⟨type, name, kind'⟩, read', same⟩ := tracks.value v v' paired r read
    have kinds : ρ.Kinds (.function f) kind' := kind ▸ same.kind
    cases kinds with | function record => exact ⟨_, .function read' rfl, .module record.module⟩
  | @argument v r a read kind =>
    obtain ⟨⟨type, name, kind'⟩, read', same⟩ := tracks.value v v' paired r read
    have kinds : ρ.Kinds (.argument a) kind' := kind ▸ same.kind
    cases kinds with | argument parent => exact ⟨_, .argument read' rfl, .function parent⟩
  | @placed v r i b f read kind block parent =>
    obtain ⟨⟨type, name, kind'⟩, read', same⟩ := tracks.value v v' paired r read
    have kinds : ρ.Kinds (.instruction i) kind' := kind ▸ same.kind
    cases kinds with | @instruction b₁ b₁' o o' inside operation =>
    obtain ⟨br', block', sameBlock⟩ := tracks.block _ _ inside b block
    have parents := sameBlock.parent
    rw [parent] at parents
    cases placed : br'.parent with
    | none => rw [placed] at parents; cases parents
    | some f' =>
      rw [placed] at parents
      cases parents with | some home => exact ⟨_, .placed read' rfl block' placed, .function home⟩
  | @detached v r i b read kind block parent =>
    obtain ⟨⟨type, name, kind'⟩, read', same⟩ := tracks.value v v' paired r read
    have kinds : ρ.Kinds (.instruction i) kind' := kind ▸ same.kind
    cases kinds with | @instruction b₁ b₁' o o' inside operation =>
    obtain ⟨br', block', sameBlock⟩ := tracks.block _ _ inside b block
    have parents := sameBlock.parent
    rw [parent] at parents
    cases placed : br'.parent with
    | none => exact ⟨_, .detached read' rfl block' placed, .detached⟩
    | some f' => rw [placed] at parents; cases parents
  | @int v r n read kind =>
    obtain ⟨⟨type, name, kind'⟩, read', same⟩ := tracks.value v v' paired r read
    have kinds : ρ.Kinds (.int n) kind' := kind ▸ same.kind
    cases kinds with | int => exact ⟨_, .int read' rfl, .free⟩
  | @bytes v r content read kind =>
    obtain ⟨⟨type, name, kind'⟩, read', same⟩ := tracks.value v v' paired r read
    have kinds : ρ.Kinds (.bytes content) kind' := kind ▸ same.kind
    cases kinds with | bytes => exact ⟨_, .bytes read' rfl, .free⟩

theorem anchor (before : c.BasesBefore) {v v' : ValueRef} (paired : ρ.Values v v') :
    Echoed ρ.Anchors (c₁.anchor v) (c.anchor v') := by
  intro anchor found
  obtain ⟨anchor', home, same⟩ := tracks.anchored paired (Context.anchored_of_anchor found)
  exact ⟨anchor', (Context.anchor_eq_ok before).mpr home, same⟩

theorem operandLabel {v v' : ValueRef} (paired : ρ.Values v v') :
    Echoed (fun l l' => l'.unnumbered = l.unnumbered) (c₁.operandLabel v) (c.operandLabel v') :=
  (tracks.valueName paired).bind fun _ _ same => .pure (same ▸ rfl)

theorem scopeFault (before : c.BasesBefore) {v v' : ValueRef} {m m' : ModuleRef}
    {f f' : Option FunctionRef} {strict : Bool} (paired : ρ.Values v v') (modules : ρ.Modules m m')
    (functions : Option.Rel (ρ.Through FunctionRef.value) f f') :
    Echoed (Option.Rel ScopeFault.Alike) (c₁.scopeFault v m f strict)
      (c.scopeFault v' m' f' strict) := by
  refine (tracks.anchor before paired).bind fun home home' same => ?_
  cases same with
  | free => exact .pure .none
  | module owner =>
    refine .ite (eq_iff modules_unique owner modules) (fun _ => .pure .none) fun _ => ?_
    refine (tracks.operandLabel paired).bind fun l l' label => ?_
    refine (tracks.moduleName owner).bind fun _ _ ownerName => ?_
    refine (tracks.moduleName modules).bind fun _ _ userName => .pure (.some ?_)
    simp [ScopeFault.Alike, ScopeFault.unnumbered, label, ownerName, userName]
  | function owner =>
    cases functions with
    | some user =>
      refine .ite (eq_iff functionRefs_unique owner user) (fun _ => .pure .none) fun _ => ?_
      refine (tracks.operandLabel paired).bind fun l l' label => ?_
      refine (tracks.functionName owner).bind fun _ _ ownerName => ?_
      refine (tracks.functionName user).bind fun _ _ userName => .pure (.some ?_)
      simp [ScopeFault.Alike, ScopeFault.unnumbered, label, ownerName, userName]
    | none =>
      refine (tracks.operandLabel paired).bind fun l l' label => ?_
      refine (tracks.functionName owner).bind fun _ _ ownerName => .pure (.some ?_)
      simp [ScopeFault.Alike, ScopeFault.unnumbered, label, ownerName]
  | detached =>
    refine .ite .rfl (fun _ => ?_) fun _ => .pure .none
    refine (tracks.operandLabel paired).bind fun l l' label => .pure (.some ?_)
    simp [ScopeFault.Alike, ScopeFault.unnumbered, label]

theorem firstScopeFault (before : c.BasesBefore) {m m' : ModuleRef} {f f' : Option FunctionRef}
    {strict : Bool} (modules : ρ.Modules m m')
    (functions : Option.Rel (ρ.Through FunctionRef.value) f f') {us us' : List ValueRef}
    (operands : Forall₂ ρ.Values us us') :
    Echoed (Option.Rel ScopeFault.Alike) (c₁.firstScopeFault m f strict us)
      (c.firstScopeFault m' f' strict us') := by
  induction operands with
  | nil => exact .pure .none
  | cons paired _ ih =>
    refine (tracks.scopeFault before paired modules functions).bind fun _ _ same => ?_
    cases same with
    | some alike => exact .pure (.some alike)
    | none => exact ih

/-! ### Types of operands -/

theorem calleeSignature? {v v' : ValueRef} (paired : ρ.Values v v') :
    Echoed (Option.Rel fun t t' => ρ.Types t.type t'.type) (c₁.calleeSignature? v)
      (c.calleeSignature? v') := by
  refine (tracks.valueType paired).bind fun t t' types => ?_
  refine (tracks.shape t t' types).bind fun s s' shapes => ?_
  cases shapes with
  | pointer pointee space =>
    refine (tracks.shape _ _ pointee).bind fun q q' same => ?_
    rw [same.isFunction]
    cases q.isFunction with
    | true => exact .pure (.some pointee)
    | false => exact .pure .none
  | _ => exact .pure .none

theorem checkArguments {position : Nat} {ts ts' : List TypeRef} {us us' : List ValueRef}
    (params : Forall₂ ρ.Types ts ts') (args : Forall₂ ρ.Values us us') :
    Echoed Eq (c₁.checkArguments position ts us) (c.checkArguments position ts' us') := by
  induction args generalizing position ts ts' with
  | nil =>
    cases params with
    | nil => exact .pure rfl
    | cons => exact .pure rfl
  | cons paired _ ih =>
    cases params with
    | nil =>
      refine (tracks.valueType paired).bind fun t t' types => ?_
      refine (tracks.shape t t' types).bind fun s s' shapes => ?_
      exact .ite (by rw [shapes.isFirstClass]) (fun _ => .skip fun _ => .throw) fun _ => ih .nil
    | cons param params =>
      refine (tracks.valueType paired).bind fun t t' types => ?_
      exact .ite (not_congr (eq_iff types_unique param types)) (fun _ => .skip fun _ => .skip fun _ => .throw)
        fun _ => ih params

theorem checkCall {v v' : ValueRef} {us us' : List ValueRef} (callee : ρ.Values v v')
    (args : Forall₂ ρ.Values us us') :
    Echoed (fun t t' => ρ.Types t.type t'.type) (c₁.checkCall v us) (c.checkCall v' us') := by
  refine (tracks.calleeSignature? callee).bind fun t t' same => ?_
  cases same with
  | none => exact .skip fun _ => .throw
  | @some t t' types =>
    refine (tracks.signature types).bind fun ⟨_, _, variadic⟩ ⟨_, _, variadic'⟩ same => ?_
    obtain ⟨_, params, rfl⟩ := same
    have lengths := params.length_eq
    have counts := args.length_eq
    refine .ite (by simp only [lengths, counts]) (fun _ => .skip fun _ => .throw) fun _ => ?_
    exact (tracks.checkArguments params args).bind fun _ _ _ => .pure types

theorem checkCondition {v v' : ValueRef} (paired : ρ.Values v v') :
    Echoed Eq (c₁.checkCondition v) (c.checkCondition v') := by
  refine (tracks.valueType paired).bind fun t t' types => ?_
  refine (tracks.shape t t' types).bind fun s s' shapes => ?_
  exact .ite (not_congr shapes.eq_integer) (fun _ => .skip fun _ => .throw) fun _ => .pure rfl

/-! ### Blocks -/

omit tracks in
theorem getLast?_rel {α : Type} {R : α → α → Prop} {as as' : List α} (listed : Forall₂ R as as') :
    Option.Rel R as.getLast? as'.getLast? := by
  induction listed with
  | nil => exact .none
  | cons head others ih =>
    rw [List.getLast?_cons, List.getLast?_cons]
    cases others with
    | nil => exact .some head
    | cons => cases ih with | some last => exact .some last

theorem terminator? {b b' : BlockRef} (paired : ρ.Blocks b b') :
    Echoed (Option.Rel (ρ.Through InstructionRef.value)) (c₁.terminator? b) (c.terminator? b') := by
  refine (tracks.block b b' paired).bind fun ⟨_, _, is, _⟩ ⟨_, _, is', _⟩ same => ?_
  have listed : Forall₂ (ρ.Through InstructionRef.value) is is' := same.instructions
  have lasts := getLast?_rel listed
  dsimp only
  generalize is.getLast? = last, is'.getLast? = last' at lasts ⊢
  cases lasts with
  | none => exact .pure .none
  | some paired =>
    refine (tracks.value _ _ paired).bind fun ⟨_, _, kind⟩ ⟨_, _, kind'⟩ same => ?_
    have kinds : ρ.Kinds kind kind' := same.kind
    cases kinds with
    | @instruction _ _ o o' parent operation =>
      dsimp only
      rw [operation.isTerminator]
      cases o.isTerminator with
      | true => exact .pure (.some paired)
      | false => exact .pure .none
    | _ => exact .pure .none

theorem checkOpen {b b' : BlockRef} {o o' : Operation} (paired : ρ.Blocks b b') :
    Echoed Eq (c₁.checkOpen b o) (c.checkOpen b' o') := by
  refine (tracks.terminator? paired).bind fun _ _ same => ?_
  cases same with
  | none => exact .pure rfl
  | some => exact .skip fun _ => .skip fun _ => .throw

theorem checkOperandScope (before : c.BasesBefore) {b b' : BlockRef} {us us' : List ValueRef}
    (paired : ρ.Blocks b b') (operands : Forall₂ ρ.Values us us') :
    Echoed Eq (c₁.checkOperandScope b us) (c.checkOperandScope b' us') := by
  refine (tracks.block b b' paired).bind fun ⟨_, parent, _, _⟩ ⟨_, parent', _, _⟩ same => ?_
  have parents : Option.Rel (ρ.Through FunctionRef.value) parent parent' := same.parent
  cases parents with
  | none => exact .pure rfl
  | some known =>
    refine (tracks.function known).bind fun f f' functions => ?_
    refine (tracks.firstScopeFault before functions.module (.some known) operands).bind
      fun _ _ same => ?_
    cases same with
    | some => exact .throw
    | none => exact .pure rfl

theorem checkDirectCallee {v v' : ValueRef} {b b' : BlockRef} (callee : ρ.Values v v')
    (paired : ρ.Blocks b b') :
    Echoed Eq (c₁.checkDirectCallee v b) (c.checkDirectCallee v' b') := by
  refine (tracks.value v v' callee).bind fun ⟨_, _, kind⟩ ⟨_, _, kind'⟩ same => ?_
  have kinds : ρ.Kinds kind kind' := same.kind
  refine (tracks.block b b' paired).bind fun ⟨_, parent, _, _⟩ ⟨_, parent', _, _⟩ same => ?_
  have parents : Option.Rel (ρ.Through FunctionRef.value) parent parent' := same.parent
  cases kinds with
  | function target =>
    cases parents with
    | none => exact .pure rfl
    | some caller =>
      refine (tracks.function caller).bind fun f f' functions => ?_
      exact .ite (not_congr (eq_iff modules_unique target.module functions.module))
        (fun _ => .skip fun _ => .skip fun _ => .skip fun _ => .throw) fun _ => .pure rfl
  | _ => cases parents <;> exact .pure rfl

theorem checkReturn {u u' : Option ValueRef} {b b' : BlockRef} (value : Option.Rel ρ.Values u u')
    (paired : ρ.Blocks b b') : Echoed Eq (c₁.checkReturn u b) (c.checkReturn u' b') := by
  refine (tracks.block b b' paired).bind fun ⟨_, parent, _, _⟩ ⟨_, parent', _, _⟩ same => ?_
  have parents : Option.Rel (ρ.Through FunctionRef.value) parent parent' := same.parent
  cases parents with
  | none => exact .pure rfl
  | some known =>
    refine (tracks.function known).bind fun f f' functions => ?_
    refine (tracks.signature functions.signature).bind fun ⟨_, _, _⟩ ⟨_, _, _⟩ ⟨result, _⟩ => ?_
    cases value with
    | none =>
      refine (tracks.shape _ _ result).bind fun s s' shapes => ?_
      exact .ite (by rw [shapes.isVoid]) (fun _ => .skip fun _ => .skip fun _ => .throw)
        fun _ => .pure rfl
    | some returned =>
      refine (tracks.valueType returned).bind fun t t' types => ?_
      exact .ite (not_congr (eq_iff types_unique types result)) (fun _ => .skip fun _ => .skip fun _ =>
        .skip fun _ => .throw)
        fun _ => .pure rfl

theorem operandsOf {is is' : List InstructionRef}
    (listed : Forall₂ (ρ.Through InstructionRef.value) is is') :
    Echoed (Forall₂ ρ.Values) (c₁.operandsOf is) (c.operandsOf is') := by
  induction listed with
  | nil => exact .pure .nil
  | cons paired _ ih =>
    refine (tracks.operation paired).bind fun _ _ same => ?_
    exact ih.bind fun _ _ others => .pure (List.rel_append same.operands others)

theorem checkInsertion (before : c.BasesBefore) {b b' : BlockRef} {f f' : FunctionRef}
    (paired : ρ.Blocks b b') (known : ρ.Through FunctionRef.value f f') :
    Echoed Eq (c₁.checkInsertion b f) (c.checkInsertion b' f') := by
  refine (tracks.block b b' paired).bind fun _ _ blocks => ?_
  refine (tracks.operandsOf blocks.instructions).bind fun _ _ operands => ?_
  refine (tracks.function known).bind fun _ _ functions => ?_
  refine (tracks.firstScopeFault before functions.module (.some known) operands).bind
    fun _ _ same => ?_
  cases same with
  | some => exact .skip fun _ => .throw
  | none => exact .pure rfl

end Reflects

theorem idxOf?_eq {α : Type} [DecidableEq α] {R : α → α → Prop} (unique : Relator.BiUnique R)
    {as as' : List α} {a a' : α} (listed : Forall₂ R as as') (h : R a a') :
    as'.idxOf? a' = as.idxOf? a := by
  induction listed with
  | nil => rfl
  | cons head _ ih =>
    rw [List.idxOf?_cons, List.idxOf?_cons, ih]
    have same := eq_iff unique head h
    simp only [beq_iff_eq, same]

namespace Reflects

variable (tracks : ρ.Reflects c₁ c)
include tracks

theorem blockPosition {f f' : FunctionRef} {d d' : Option BlockRef}
    (known : ρ.Through FunctionRef.value f f') (siblings : Option.Rel ρ.Blocks d d') :
    Echoed Eq (c₁.blockPosition f d) (c.blockPosition f' d') := by
  refine (tracks.function known).bind fun _ _ functions => ?_
  cases siblings with
  | none => exact .pure functions.blocks.length_eq
  | @some d d' sibling =>
    dsimp only
    rw [idxOf?_eq blocks_unique functions.blocks sibling]
    split
    · exact .pure rfl
    · exact .skip fun _ => .throw

theorem globalPosition {m m' : ModuleRef} {g g' : Option GlobalRef} (paired : ρ.Modules m m')
    (siblings : Option.Rel (ρ.Through GlobalRef.value) g g') :
    Echoed Eq (c₁.globalPosition m g) (c.globalPosition m' g') := by
  refine (tracks.module m m' paired).bind fun _ _ modules => ?_
  cases siblings with
  | none => exact .pure modules.globals.length_eq
  | some sibling =>
    dsimp only
    rw [idxOf?_eq globalRefs_unique modules.globals sibling]
    split
    · exact .pure rfl
    · exact .throw

theorem checkInitializer (before : c.BasesBefore) {m m' : ModuleRef} {t t' : TypeRef}
    {k k' : ConstantRef} {name : String} (modules : ρ.Modules m m') (type : ρ.Types t t')
    (init : ρ.Through ConstantRef.value k k') :
    Echoed Eq (c₁.checkInitializer m t k name) (c.checkInitializer m' t' k' name) := by
  refine (tracks.valueType init).bind fun _ _ types => ?_
  refine .ite (not_congr (eq_iff types_unique types type)) (fun _ => .skip fun _ => .skip fun _ => .throw)
        fun _ => ?_
  refine (tracks.scopeFault before init modules .none).bind fun _ _ same => ?_
  cases same with
  | some => exact .throw
  | none => exact .pure rfl

/-! ### Constants -/

theorem pointerParts {k k' : ConstantRef} (base : ρ.Through ConstantRef.value k k') :
    Echoed (fun p p' => ρ.Types p.1 p'.1 ∧ p'.2 = p.2) (c₁.pointerParts k) (c.pointerParts k') := by
  refine (tracks.valueType base).bind fun _ _ types => ?_
  refine (tracks.shape _ _ types).bind fun _ _ shapes => ?_
  cases shapes with
  | pointer pointee space => exact .pure ⟨pointee, rfl⟩
  | _ => exact .skip fun _ => .throw

theorem elementType {position : Nat} {t t' : TypeRef} {ks ks' : List ConstantRef}
    (current : ρ.Types t t') (indices : Forall₂ (ρ.Through ConstantRef.value) ks ks') :
    Echoed ρ.Types (c₁.elementType position t ks) (c.elementType position t' ks') := by
  induction indices generalizing position t t' with
  | nil => exact .pure current
  | cons paired _ ih =>
    refine (tracks.value _ _ paired).bind fun ⟨_, _, kind⟩ ⟨_, _, kind'⟩ same => ?_
    have kinds : ρ.Kinds kind kind' := same.kind
    cases kinds with
    | int n =>
      refine .ite .rfl (fun _ => ih current) fun _ => ?_
      refine (tracks.shape t t' current).bind fun _ _ shapes => ?_
      cases shapes with
      | array element length => exact ih element
      | _ => exact .skip fun _ => .throw
    | _ => exact .throw

/-! ### Names -/

theorem nameScope {v v' : ValueRef} (paired : ρ.Values v v') :
    Echoed ρ.Scopes (c₁.nameScope v) (c.nameScope v') := by
  refine (tracks.value v v' paired).bind fun ⟨_, _, kind⟩ ⟨_, _, kind'⟩ same => ?_
  have kinds : ρ.Kinds kind kind' := same.kind
  cases kinds with
  | global record => exact .pure (.module record.module)
  | function record => exact .pure (.module record.module)
  | argument parent position => exact .pure (.function parent)
  | instruction parent operation =>
    refine (tracks.block _ _ parent).bind fun ⟨_, home, _, _⟩ ⟨_, home', _, _⟩ same => ?_
    have homes : Option.Rel (ρ.Through FunctionRef.value) home home' := same.parent
    cases homes with
    | some known => exact .pure (.function known)
    | none => exact .pure .detached
  | _ => exact .throw

end Reflects
end Pairing
end ModuleIR
