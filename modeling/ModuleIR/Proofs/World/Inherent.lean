import ModuleIR.Proofs.World.Reachable

set_option autoImplicit false

/-!
# What instructions have for good

An instruction is checked once, when it is made, and its operation is never replaced. What the checks
establish about its type and operation holds of every instruction of a reachable world, as soon as it
outlasts the growth of the context and the erasure of modules.
-/
namespace ModuleIR

namespace Context

def EachInstruction (P : Context → TypeRef → Operation → Prop) (ctx : Context) : Prop :=
  ∀ v r i, ctx.value v = .ok r → r.kind = .instruction i → P ctx r.type i.operation

def Bears (P : Context → TypeRef → Operation → Prop) (ctx : Context) (v : ValueRef)
    (o : Operation) : Prop :=
  ∃ r, ctx.values[v.index]? = some r ∧ P ctx r.type o

/-- An instruction is made with it, and never loses it. -/
structure Inherent (P : Context → TypeRef → Operation → Prop) : Prop where
  grow : ∀ {ctx ctx' : Context}, ctx.Grows ctx' → ∀ {type : TypeRef} {o o' : Operation},
    o'.bare = o.bare → P ctx type o → P ctx' type o'
  erase : ∀ {ctx ctx' : Context} {m : ModuleRef}, ctx.Erases m ctx' →
    ∀ {type : TypeRef} {o : Operation}, P ctx type o → P ctx' type o
  call : ∀ {ctx ctx' : Context} {callee : ValueRef} {args : List ValueRef} {name : String}
    {b : BlockRef} {c : CallRef}, ctx.WellFormed →
    (Build.createCall callee args name b ctx).result = .ok (c, ctx') →
    ctx'.Bears P c.value (.call callee args .c)
  ret : ∀ {ctx ctx' : Context} {value : Option ValueRef} {b : BlockRef} {c : ReturnRef},
    ctx.WellFormed → (Build.createReturn value b ctx).result = .ok (c, ctx') →
    ctx'.Bears P c.value (.ret value)
  br : ∀ {ctx ctx' : Context} {target b : BlockRef} {c : BranchRef}, ctx.WellFormed →
    (Build.createBranch target b ctx).result = .ok (c, ctx') → ctx'.Bears P c.value (.br target)
  condBr : ∀ {ctx ctx' : Context} {cond : ValueRef} {ifTrue ifFalse b : BlockRef} {c : BranchRef},
    ctx.WellFormed → (Build.createCondBranch cond ifTrue ifFalse b ctx).result = .ok (c, ctx') →
    ctx'.Bears P c.value (.condBr cond ifTrue ifFalse)

variable {P : Context → TypeRef → Operation → Prop} {ctx ctx' : Context}

theorem eachInstruction_new (id : ContextId) : (Context.new id).EachInstruction P := by
  intro v r i read
  simp [Context.new, value_eq_ok] at read

theorem EachInstruction.kept (inherent : Inherent P) (h : ctx.EachInstruction P)
    (g : ctx.Grows ctx') {v : ValueRef} {r' : ValueRecord} {i' : InstructionRecord}
    (read' : ctx'.value v = .ok r') (kind' : r'.kind = .instruction i')
    (old : ∃ i, ctx.instruction ⟨v⟩ = .ok i) : P ctx' r'.type i'.operation := by
  obtain ⟨i, known⟩ := old
  obtain ⟨r, read, kind⟩ := instruction_eq_ok.mp known
  obtain ⟨again, held, type, step⟩ := g.value read
  obtain rfl := Checked.unique read' held
  obtain ⟨same, kind'', _, bare⟩ := (kind ▸ step).of_instruction
  obtain rfl := ValueKind.instruction.inj (kind'.symm.trans kind'')
  exact type ▸ inherent.grow g bare (h v r i read kind)

theorem EachInstruction.append (inherent : Inherent P) (h : ctx.EachInstruction P) {b : BlockRef}
    {operation : Operation} {i : InstructionRef} (appends : ctx.Appends ctx' b operation i)
    (made : ctx'.Bears P i.value operation) : ctx'.EachInstruction P := by
  obtain ⟨r, stored, holds⟩ := made
  intro v r' i' read' kind'
  have known : ctx'.instruction ⟨v⟩ = .ok i' := instruction_eq_ok.mpr ⟨r', read', kind'⟩
  rcases appends.instructions ⟨v⟩ i' known with rfl | old
  · obtain ⟨same, known', _, bare⟩ := appends.made
    obtain rfl := Checked.unique known known'
    obtain rfl : r = r' := Option.some.inj (stored.symm.trans (value_eq_ok.mp read').2.1)
    exact inherent.grow (.refl ctx') bare holds
  · exact h.kept inherent appends.toGrows read' kind' old

end Context

open Context

variable {P : Context → TypeRef → Operation → Prop}

theorem Request.eachInstruction (inherent : Inherent P) {ctx ctx' : Context} (wf : ctx.WellFormed)
    {request : Request} {answers : List Handle} (admitted : ∀ h ∈ request.handles, ctx.Admits h)
    (run : (request.run ctx).result = .ok (answers, ctx')) (before : ctx.EachInstruction P) :
    ctx'.EachInstruction P := by
  obtain ⟨effect, _⟩ := Request.effect wf admitted run
  have kept (grows : ctx.Grows ctx') (old : ∀ i r', ctx'.instruction i = .ok r' →
      ∃ r, ctx.instruction i = .ok r) : ctx'.EachInstruction P := fun v r' i' read' kind' =>
    before.kept inherent grows read' kind' (old ⟨v⟩ i' (instruction_eq_ok.mpr ⟨r', read', kind'⟩))
  cases request with
  | eraseModule m =>
    intro v r i read kind
    exact inherent.erase effect (before v r i (Context.Erases.value effect |>.mp read).1 kind)
  | insertBlock b f position => exact kept effect.1.toGrows effect.1.instructions
  | createCall callee args name b =>
    obtain ⟨c, built, _⟩ := answer_eq_ok run
    obtain ⟨appends, _⟩ := Build.createCall_spec wf
      (fun u mem => admitted _ (List.mem_cons_of_mem _ (List.mem_map_of_mem mem))) built
    exact before.append inherent appends (inherent.call wf built)
  | createReturn value b =>
    obtain ⟨c, built, _⟩ := answer_eq_ok run
    obtain ⟨appends, _⟩ := Build.createReturn_spec wf
      (fun u mem => admitted _ (List.mem_cons_of_mem _ (List.mem_map_of_mem (by simpa using mem))))
      built
    exact before.append inherent appends (inherent.ret wf built)
  | createBranch target b =>
    obtain ⟨c, built, _⟩ := answer_eq_ok run
    obtain ⟨appends, _⟩ := Build.createBranch_spec wf (admitted _ List.mem_cons_self) built
    exact before.append inherent appends (inherent.br wf built)
  | createCondBranch cond ifTrue ifFalse b =>
    obtain ⟨c, built, _⟩ := answer_eq_ok run
    obtain ⟨appends, _⟩ := Build.createCondBranch_spec wf
      ⟨admitted _ (by simp [handles]), admitted _ (by simp [handles]),
        admitted _ (by simp [handles])⟩ built
    exact before.append inherent appends (inherent.condBr wf built)
  | _ =>
    have extension : ctx.Extends ctx' := effect
    exact kept extension.toGrows extension.instructions

/-- What is inherent to instructions holds of each one in a reachable world. -/
theorem World.Reachable.eachInstruction (inherent : Inherent P) {w : World}
    (reachable : w.Reachable) : ∀ ctx ∈ w.contexts, ctx.EachInstruction P :=
  reachable.invariant eachInstruction_new fun _ _ _ _ wf admitted run before =>
    Request.eachInstruction inherent wf admitted run before

end ModuleIR
