import ModuleIR.Proofs.Interleaving.Entities
import ModuleIR.Proofs.Steps.Instructions

set_option autoImplicit false

/-!
# Filling functions alike

The steps that make and insert blocks, and those that make instructions, follow each other. A block is
inserted at the same place, its names are made unique in the same way, and an instruction is appended
to the counterpart of its block.
-/
namespace ModuleIR

open List (Forall₂)

namespace Pairing

open Checked (Echoed)

open Context

variable {α β : Type} {ρ ρ₂ : Pairing} {c₁ c₂ c : Context}

namespace Follows

section Fail

variable {γ : Type} {f : α → Build γ} {step' : Build β} {R : Pairing → Context → γ → β → Prop}

theorem fail {v : Violation} : Follows ρ ρ₂ c₁ c₂ c (Build.fail v >>= f) step' R := by
  intro a c₁' run
  obtain ⟨_, _, failed, _⟩ := Build.bind_eq_ok.mp run
  exact (Build.fail_eq_ok.mp failed).elim

theorem skip {reading : Context → Checked α} (rest : ∀ a, Follows ρ ρ₂ c₁ c₂ c (f a) step' R) :
    Follows ρ ρ₂ c₁ c₂ c (Build.read reading >>= f) step' R := by
  intro d c₁' run
  obtain ⟨a, _, success, run⟩ := Build.bind_eq_ok.mp run
  obtain ⟨_, rfl⟩ := Build.read_eq_ok.mp success
  exact rest a d c₁' run

end Fail

theorem report (s : SideBySide ρ ρ₂ c₁ c₂ c) {event event' : Event} :
    Follows ρ ρ₂ c₁ c₂ c (Build.emit event) (Build.emit event') fun _ _ _ _ => True := by
  intro u c₁' run
  obtain rfl := Build.emit_eq_ok.mp run
  exact ⟨(), c, Build.emit_eq_ok.mpr rfl, ρ, le_refl ρ, s, .refl c₁, trivial⟩

theorem owned_of_name (s : SideBySide ρ ρ₂ c₁ c₂ c) {v v' : ValueRef} {name : String}
    (paired : ρ.Values v v') (named : c₁.valueName v = .ok (some name)) : c₁.Owned (.value v) := by
  obtain ⟨r, read, has⟩ := valueName_eq_ok.mp named
  obtain ⟨r', read', records⟩ := s.left.value v v' paired r read
  have own' := (s.constants v' r' read').own_of_name (records.name.trans has)
  have keys := records.kind.key?
  rw [own'] at keys
  refine ⟨r, read, ?_⟩
  generalize r.kind.key? = key at keys
  cases keys
  rfl

/-! ### Blocks -/

theorem adoptNames (s : SideBySide ρ ρ₂ c₁ c₂ c) {f f' : FunctionRef} {is is' : List InstructionRef}
    (functions : ρ.Through FunctionRef.value f f')
    (listed : Forall₂ (ρ.Through InstructionRef.value) is is') :
    Follows ρ ρ₂ c₁ c₂ c (Build.adoptNames f is) (Build.adoptNames f' is') fun _ _ _ _ => True := by
  induction is generalizing ρ c₁ c is' with
  | nil =>
    cases listed
    exact .pure s trivial
  | cons i is ih =>
    cases listed with | cons paired others =>
    refine .read (s.left.valueName paired) fun name name' read same => ?_
    subst same
    cases name with
    | none => exact ih s functions others
    | some name =>
      have owned := owned_of_name s paired read
      refine (rebindInFunction s functions none name (.value paired)).bind
        fun ρ₁ c₁ c bound bound' sub s keeps same => ?_
      subst same
      refine .changeThen (nameChanged s (paired.mono sub) (keeps.owned _ owned) bound') fun s _ => ?_
      exact ih s (functions.mono sub) (through_mono sub others)

section

variable (s : SideBySide ρ ρ₂ c₁ c₂ c)
include s

theorem adoptBlockName {f f' : FunctionRef} {b b' : BlockRef}
    (functions : ρ.Through FunctionRef.value f f') (blocks : ρ.Blocks b b') :
    Follows ρ ρ₂ c₁ c₂ c (Build.adoptBlockName f b) (Build.adoptBlockName f' b')
      fun _ _ _ _ => True := by
  refine .read (s.left.block b b' blocks) fun ⟨name, _, _, _⟩ ⟨name', _, _, _⟩ read same => ?_
  obtain rfl : name' = name := same.name
  cases name' with
  | none => exact .pure s trivial
  | some name =>
    exact blockNameThen blocks ⟨_, read⟩ (rebindInFunction s functions none name (.block blocks))

theorem placeBlock {b b' : BlockRef} {f f' : FunctionRef} {d d' : Option BlockRef}
    (blocks : ρ.Blocks b b') (owned : c₁.Owned (.block b))
    (functions : ρ.Through FunctionRef.value f f') (siblings : Option.Rel ρ.Blocks d d') :
    Follows ρ ρ₂ c₁ c₂ c
      (do
        let position ← Build.read (·.blockPosition f d)
        Build.read (·.checkInsertion b f)
        Build.modifyFunction f fun record =>
          { record with blocks := record.blocks.insertIdx position b }
        Build.change (·.modifyBlock b ({ · with parent := some f }))
        Build.adoptBlockName f b
        Build.adoptNames f (← Build.read (·.block b)).instructions
        let name := (← Build.read (·.block b)).name.getD ""
        Build.emit (.blockInserted name (← Build.read (·.functionName f)) position))
      (do
        let position ← Build.read (·.blockPosition f' d')
        Build.read (·.checkInsertion b' f')
        Build.modifyFunction f' fun record =>
          { record with blocks := record.blocks.insertIdx position b' }
        Build.change (·.modifyBlock b' ({ · with parent := some f' }))
        Build.adoptBlockName f' b'
        Build.adoptNames f' (← Build.read (·.block b')).instructions
        let name := (← Build.read (·.block b')).name.getD ""
        Build.emit (.blockInserted name (← Build.read (·.functionName f')) position))
      fun _ _ _ _ => True := by
  refine .read (s.left.blockPosition functions siblings) fun position _ _ same => ?_
  subst same
  refine .read (s.left.checkInsertion s.tabled.basesBefore blocks functions) fun _ _ _ _ => ?_
  have placed (r r' : FunctionRecord) (same : ρ.Functions r r') :
      ρ.Functions { r with blocks := r.blocks.insertIdx position b }
        { r' with blocks := r'.blocks.insertIdx position b' } :=
    ⟨same.module, same.signature, same.linkage, same.convention, same.args,
      insertIdx_rel same.blocks blocks position, same.names⟩
  refine (modifyFunction s functions placed).bind fun ρ₁ c₁ c _ _ sub s keeps _ => ?_
  have functions := functions.mono sub
  have blocks := blocks.mono sub
  refine .changeThen (s.modifyBlock blocks (keeps.owned _ owned)
    (fun r r' same => ⟨same.name, .some functions, same.instructions⟩) (fun _ => rfl) fun _ => rfl)
    fun s _ => ?_
  refine (adoptBlockName s functions blocks).bind fun ρ₃ c₁ c _ _ sub s _ _ => ?_
  have functions := functions.mono sub
  have blocks := blocks.mono sub
  refine .read (s.left.block b b' blocks) fun r r' _ same => ?_
  refine (adoptNames s functions same.instructions).bind fun ρ₄ c₁ c _ _ sub s _ _ => ?_
  refine .read (s.left.block b b' (blocks.mono sub)) fun r r' _ same => ?_
  exact .read (s.left.functionName (functions.mono sub)) fun _ _ _ _ => report s

theorem insertBlock {b b' : BlockRef} {f f' : FunctionRef} {d d' : Option BlockRef}
    (blocks : ρ.Blocks b b') (functions : ρ.Through FunctionRef.value f f')
    (siblings : Option.Rel ρ.Blocks d d') :
    Follows ρ ρ₂ c₁ c₂ c (Build.insertBlock b f d) (Build.insertBlock b' f' d')
      fun _ _ _ _ => True := by
  refine .read (s.left.block b b' blocks) fun ⟨_, parent, _, _⟩ ⟨_, parent', _, _⟩ read same => ?_
  have parents : Option.Rel (ρ.Through FunctionRef.value) parent parent' := same.parent
  cases parents with
  | none => exact placeBlock s blocks ⟨_, read⟩ functions siblings
  | some => exact skip fun _ => fail

theorem createBlock (name : String) {f f' : Option FunctionRef} {d d' : Option BlockRef}
    (parents : Option.Rel (ρ.Through FunctionRef.value) f f')
    (siblings : Option.Rel ρ.Blocks d d') :
    Follows ρ ρ₂ c₁ c₂ c (Build.createBlock name f d) (Build.createBlock name f' d')
      fun ρ' _ b b' => ρ'.Blocks b b' := by
  have records : ρ.BlockRecords { name := Build.looseName name } { name := Build.looseName name } :=
    ⟨rfl, .none, .nil⟩
  refine bind (P := fun ρ' _ b b' => ρ'.Blocks b b') (.update (s.pushBlock records rfl rfl))
    fun ρ₁ c₁ c b b' sub s _ blocks => ?_
  cases parents with
  | none =>
    refine .require ?_ (.pure s blocks)
    cases siblings <;> rfl
  | some functions =>
    refine (insertBlock s blocks (functions.mono sub) (option_mono (fun _ _ => sub _ _) siblings)).bind
      fun ρ₃ c₁ c _ _ sub s _ _ => .pure s (blocks.mono sub)

/-! ### Instructions -/

theorem append {b b' : BlockRef} {t t' : TypeRef} {o o' : Operation} (blocks : ρ.Blocks b b')
    (types : ρ.Types t t') (operations : ρ.Operations o o') (name : String) :
    Follows ρ ρ₂ c₁ c₂ c (Build.append b t o name) (Build.append b' t' o' name)
      fun ρ' _ i i' => ρ'.Values i.value i'.value := by
  refine .read (s.left.checkOpen blocks) fun _ _ checked _ => ?_
  have owned : c₁.Owned (.block b) := block_of_terminator? (checkOpen_eq_ok.mp checked)
  have records : ρ.ValueRecords { type := t, kind := .instruction ⟨b, o⟩ }
    { type := t', kind := .instruction ⟨b', o'⟩ } := ⟨types, rfl, .instruction blocks operations⟩
  refine (allocValue s records rfl).bind fun ρ₁ c₁ c v v' sub s keeps ⟨values, _⟩ => ?_
  refine .changeThen (s.modifyBlock (blocks.mono sub) (keeps.owned _ owned) (fun r r' same =>
    ⟨same.name, same.parent, List.rel_append same.instructions (.cons values .nil)⟩) (fun _ => rfl)
    fun _ => rfl) fun s _ => ?_
  cases !name.isEmpty with
  | true =>
    exact (setValueName s values name).bind fun _ _ _ _ _ sub s _ _ => .pure s (values.mono sub)
  | false => exact .pure s values

theorem createCall {v v' : ValueRef} {us us' : List ValueRef} {b b' : BlockRef}
    (callee : ρ.Values v v') (args : Forall₂ ρ.Values us us') (name : String)
    (blocks : ρ.Blocks b b') :
    Follows ρ ρ₂ c₁ c₂ c (Build.createCall v us name b) (Build.createCall v' us' name b')
      fun ρ' _ i i' => ρ'.Values i.value i'.value := by
  refine .read (s.left.checkCall callee args) fun t t' _ signature => ?_
  refine .read (s.left.checkDirectCallee callee blocks) fun _ _ _ _ => ?_
  refine .read (s.left.checkOperandScope s.tabled.basesBefore blocks args) fun _ _ _ _ => ?_
  refine .read (s.left.signature signature) fun ⟨_, _, _⟩ ⟨_, _, _⟩ _ ⟨result, _⟩ => ?_
  exact (append s blocks result (.call callee args .c) name).bind
    fun _ _ _ _ _ _ s _ made => .pure s made

theorem terminate {α : Type} (view : ValueRef → α) {b b' : BlockRef} {o o' : Operation}
    (blocks : ρ.Blocks b b') (operations : ρ.Operations o o') :
    Follows ρ ρ₂ c₁ c₂ c
      (do
        let void ← Build.voidType
        return view (← Build.append b void o "").value)
      (do
        let void ← Build.voidType
        return view (← Build.append b' void o' "").value)
      fun ρ' _ i i' => ∃ v v', ρ'.Values v v' ∧ i = view v ∧ i' = view v' := by
  refine (voidType s).bind fun ρ₁ c₁ c t t' sub s _ types => ?_
  exact (append s (blocks.mono sub) types (operations.mono sub) "").bind
    fun _ _ _ _ _ _ s _ made => .pure s ⟨_, _, made, rfl, rfl⟩

theorem createReturn {u u' : Option ValueRef} {b b' : BlockRef} (value : Option.Rel ρ.Values u u')
    (blocks : ρ.Blocks b b') :
    Follows ρ ρ₂ c₁ c₂ c (Build.createReturn u b) (Build.createReturn u' b')
      fun ρ' _ i i' => ρ'.Values i.value i'.value := by
  have made : Follows ρ ρ₂ c₁ c₂ c _ _ fun ρ' _ (i i' : ReturnRef) => ρ'.Values i.value i'.value :=
    (terminate s ReturnRef.mk blocks (.ret value)).imp fun _ _ _ _ h => by
      obtain ⟨_, _, paired, rfl, rfl⟩ := h
      exact paired
  refine .read (s.left.checkReturn value blocks) fun _ _ _ _ => ?_
  cases value with
  | none => exact made
  | some returned =>
    exact .read (s.left.checkOperandScope s.tabled.basesBefore blocks (.cons returned .nil))
      fun _ _ _ _ => made

theorem createBranch {a a' b b' : BlockRef} (target : ρ.Blocks a a') (blocks : ρ.Blocks b b') :
    Follows ρ ρ₂ c₁ c₂ c (Build.createBranch a b) (Build.createBranch a' b')
      fun ρ' _ i i' => ρ'.Values i.value i'.value :=
  (terminate s BranchRef.mk blocks (.br target)).imp fun _ _ _ _ h => by
    obtain ⟨_, _, paired, rfl, rfl⟩ := h
    exact paired

theorem createCondBranch {v v' : ValueRef} {a a' d d' b b' : BlockRef} (cond : ρ.Values v v')
    (ifTrue : ρ.Blocks a a') (ifFalse : ρ.Blocks d d') (blocks : ρ.Blocks b b') :
    Follows ρ ρ₂ c₁ c₂ c (Build.createCondBranch v a d b) (Build.createCondBranch v' a' d' b')
      fun ρ' _ i i' => ρ'.Values i.value i'.value := by
  refine .read (s.left.checkCondition cond) fun _ _ _ _ => ?_
  refine .read (s.left.checkOperandScope s.tabled.basesBefore blocks (.cons cond .nil))
    fun _ _ _ _ => ?_
  refine (terminate s BranchRef.mk blocks (.condBr cond ifTrue ifFalse)).imp
    fun _ _ _ _ h => ?_
  obtain ⟨_, _, paired, rfl, rfl⟩ := h
  exact paired

theorem setCallConvention {k k' : CallRef} (paired : ρ.Through CallRef.value k k')
    (convention : CallingConv) :
    Follows ρ ρ₂ c₁ c₂ c (Build.setCallConvention k convention)
      (Build.setCallConvention k' convention) fun _ _ _ _ => True := by
  have same : ρ.Through InstructionRef.value k.toInstruction k'.toInstruction := paired
  refine .read (s.left.instruction same) fun ⟨b, o⟩ ⟨b', o'⟩ known ⟨blocks, operations⟩ => ?_
  obtain ⟨r, read, kind⟩ := instruction_eq_ok.mp known
  have owned : c₁.Owned (.value k.value) := ⟨r, read, by rw [kind]; rfl⟩
  have operations' : ρ.Operations o o' := operations
  cases operations' with
  | call callee args _ =>
    exact .change (s.modifyValue paired owned fun q q' _ _ records =>
      ⟨⟨records.type, records.name, .instruction blocks (.call callee args convention)⟩, rfl⟩) trivial
  | _ => exact .pure s trivial

end

end Follows
end Pairing
end ModuleIR
