import ModuleIR.Proofs.Listing.Faults
import ModuleIR.Proofs.Verify.Acceptance
import ModuleIR.Proofs.Verify.Verdicts
import ModuleIR.Proofs.World.Placement
import ModuleIR.Proofs.World.Reachable

set_option autoImplicit false

/-!
# Dangling references

A live module has a text, and a verdict, as long as none of its placed instructions refers to
something that is erased or of another context. `Request.Breaks` lists the requests after which one
does: a branch to such a block, the insertion of a block with such a branch, and the erasure of
another module that the instructions of this one refer to. No other request does it.
-/
namespace ModuleIR

namespace Context

variable {ctx ctx' : Context} {m : ModuleRef} {h : Handle}

theorem References.admits (wf : ctx.WellFormed) (referred : ctx.References m h) :
    ctx.Admits h := by
  obtain ⟨i, r, f, fr, placed, _, _, mem⟩ := referred
  exact (wf.instructionSound placed.made).references h mem

theorem References.dead (wf : ctx.WellFormed) (referred : ctx.References m h)
    (dead : ¬ctx.Lives h) : (∃ b, h = .block b) ∨
      ∃ u, h = .value .any u ∧ ctx.value u = .error (.erasedValue u.index) := by
  have admitted := referred.admits wf
  obtain ⟨i, r, f, fr, ⟨made, br, read, parent⟩, _, _, mem⟩ := referred
  rcases List.mem_append.mp mem with operand | target
  · obtain ⟨u, inside, rfl⟩ := List.mem_map.mp operand
    have own : u.ctx = ctx.id := by
      rcases wf.operands i r made u inside with own | ⟨_, br', read', loose⟩
      · exact own
      · obtain rfl := Checked.unique read read'
        rw [parent] at loose
        cases loose
    obtain ⟨record, stored, _⟩ := admitted own
    have erased : record.kind.isErased = true := by
      rw [ValueKind.isErased_iff]
      by_contra live
      exact dead ⟨record, value_eq_ok.mpr ⟨own, stored, live⟩⟩
    exact .inr ⟨u, rfl, by simp [value, checkOwner, own, stored, erased]⟩
  · obtain ⟨b, _, rfl⟩ := List.mem_map.mp target
    exact .inl ⟨b, rfl⟩

/-- Nothing dangles in a module that the verifier accepts. -/
theorem not_dangles_of_accepted (wf : ctx.WellFormed)
    (accepted : ctx.verifyModule m = .ok (.ok ())) : ¬ctx.Dangles m := by
  obtain ⟨mr, live, accepted⟩ := (verifyModule_eq_ok wf).mp accepted
  refine not_dangles.mpr fun h referred => ?_
  obtain ⟨i, r, f, fr, placed, known, home, mem⟩ := referred
  obtain ⟨mr', live', listed⟩ := wf.function_listed known
  obtain rfl : mr = mr' := Except.ok.inj (live.symm.trans (home ▸ live'))
  obtain ⟨fr', known', judged⟩ := accepted.functions f listed
  obtain rfl := Checked.unique known known'
  obtain ⟨made, b, inside, br, read, member⟩ := (wf.placedIn_iff known).mp placed
  obtain ⟨_, _, _, _, blocks⟩ := judged.defined (List.ne_nil_of_mem inside)
  obtain ⟨br', read', body⟩ := blocks b inside
  obtain rfl := Checked.unique read read'
  obtain ⟨r', made', fits⟩ := body.instructions i member
  obtain rfl := Checked.unique made made'
  rcases List.mem_append.mp mem with operand | target
  · obtain ⟨u, used, rfl⟩ := List.mem_map.mp operand
    obtain ⟨_, anchored, _⟩ := fits.operands u used
    exact anchored.live
  · obtain ⟨t, used, rfl⟩ := List.mem_map.mp target
    obtain ⟨tr, held, _⟩ := fits.targets t used
    exact ⟨tr, held⟩

/-! ### What a change makes dangle -/

theorem Extends.dangles_iff (e : ctx.Extends ctx') (wf : ctx.WellFormed) :
    ctx'.Dangles m ↔ ctx.Dangles m := by
  refine exists_congr fun h => ?_
  rw [e.references_iff wf]
  exact and_congr_right fun referred => not_congr (e.toGrows.lives_iff (referred.admits wf))

theorem AppendsAlive.dangles_iff {b : BlockRef} {operation : Operation}
    (a : ctx.AppendsAlive ctx' b operation) (wf : ctx.WellFormed)
    (live : ∃ br, ctx.block b = .ok br) (admitted : ∀ h ∈ operation.handles, ctx.Admits h) :
    ctx'.Dangles m ↔ ctx.Dangles m ∨
      (ctx.BlockBelongsTo m b ∧ ∃ t ∈ operation.successors, ¬ctx.Lives (.block t)) := by
  obtain ⟨⟨i, appends⟩, alive⟩ := a
  constructor
  · rintro ⟨h, referred, dead⟩
    rcases (appends.references_iff wf live).mp referred with old | ⟨belongs, mem⟩
    · exact .inl ⟨h, old, mt (appends.toGrows.lives_iff (old.admits wf)).mpr dead⟩
    · have gone := mt (appends.toGrows.lives_iff (admitted h mem)).mpr dead
      rcases List.mem_append.mp mem with operand | target
      · obtain ⟨u, used, rfl⟩ := List.mem_map.mp operand
        obtain ⟨br, f, fr, read, parent, _⟩ := belongs
        exact absurd (alive u used br f read parent) gone
      · obtain ⟨t, used, rfl⟩ := List.mem_map.mp target
        exact .inr ⟨belongs, t, used, gone⟩
  · rintro (⟨h, old, dead⟩ | ⟨belongs, t, used, dead⟩)
    · exact ⟨h, (appends.references_iff wf live).mpr (.inl old),
        mt (appends.toGrows.lives_iff (old.admits wf)).mp dead⟩
    · have mem : .block t ∈ operation.handles := List.mem_append_right _ (List.mem_map_of_mem used)
      exact ⟨.block t, (appends.references_iff wf live).mpr (.inr ⟨belongs, mem⟩),
        mt (appends.toGrows.lives_iff (admitted _ mem)).mp dead⟩

theorem PlacesAlive.dangles_iff {b : BlockRef} {f : FunctionRef} {fr : FunctionRecord}
    (p : ctx.PlacesAlive ctx' b f) (wf : ctx.WellFormed) (known : ctx.function f = .ok fr) :
    ctx'.Dangles m ↔ ctx.Dangles m ∨ (fr.module = m ∧ ∃ i r, ctx.instruction i = .ok r ∧
      r.parent = b ∧ ∃ t ∈ r.operation.successors, ¬ctx.Lives (.block t)) := by
  obtain ⟨places, alive⟩ := p
  have admitted {i : InstructionRef} {r : InstructionRecord} (made : ctx.instruction i = .ok r)
      {h : Handle} (mem : h ∈ r.operation.handles) : ctx.Admits h :=
    (wf.instructionSound made).references h mem
  constructor
  · rintro ⟨h, referred, dead⟩
    rcases (places.references_iff wf known).mp referred with old | ⟨home, i, r, made, here, mem⟩
    · exact .inl ⟨h, old, mt (places.toGrows.lives_iff (old.admits wf)).mpr dead⟩
    · have gone := mt (places.toGrows.lives_iff (admitted made mem)).mpr dead
      rcases List.mem_append.mp mem with operand | target
      · obtain ⟨u, used, rfl⟩ := List.mem_map.mp operand
        exact absurd (alive i r made here u used) gone
      · obtain ⟨t, used, rfl⟩ := List.mem_map.mp target
        exact .inr ⟨home, i, r, made, here, t, used, gone⟩
  · rintro (⟨h, old, dead⟩ | ⟨home, i, r, made, here, t, used, dead⟩)
    · exact ⟨h, (places.references_iff wf known).mpr (.inl old),
        mt (places.toGrows.lives_iff (old.admits wf)).mp dead⟩
    · have mem : .block t ∈ r.operation.handles :=
        List.mem_append_right _ (List.mem_map_of_mem used)
      exact ⟨.block t, (places.references_iff wf known).mpr (.inr ⟨home, i, r, made, here, mem⟩),
        mt (places.toGrows.lives_iff (admitted made mem)).mp dead⟩

theorem Erases.dangles_iff {n : ModuleRef} (e : ctx.Erases n ctx') (wf : ctx.WellFormed)
    (other : m ≠ n) :
    ctx'.Dangles m ↔ ctx.Dangles m ∨ ∃ h, ctx.References m h ∧ ctx.GoesWith n h := by
  simp only [Dangles, e.references_iff wf other, e.lives_iff, ← exists_or, ← and_or_left]
  refine exists_congr fun h => and_congr_right fun _ => ?_
  constructor
  · intro dead
    exact Classical.or_iff_not_imp_left.mpr fun lives =>
      Classical.byContradiction fun stays => dead ⟨Classical.not_not.mp lives, stays⟩
  · rintro (dead | goes) ⟨lives, stays⟩
    · exact dead lives
    · exact stays goes

end Context

/-- A request after which the module refers to something dead that was alive or not referred to. -/
def Request.Breaks (ctx : Context) (m : ModuleRef) : Request → Prop
  | createBranch target b => ctx.BlockBelongsTo m b ∧ ¬ctx.Lives (.block target)
  | createCondBranch _ ifTrue ifFalse b =>
    ctx.BlockBelongsTo m b ∧ (¬ctx.Lives (.block ifTrue) ∨ ¬ctx.Lives (.block ifFalse))
  | insertBlock b f _ => ∃ fr, ctx.function f = .ok fr ∧ fr.module = m ∧
    ∃ i r, ctx.instruction i = .ok r ∧ r.parent = b ∧
      ∃ t ∈ r.operation.successors, ¬ctx.Lives (.block t)
  | eraseModule n => ∃ h, ctx.References m h ∧ ctx.GoesWith n h
  | _ => False

open Context in
/-- Which requests make a module dangle that stays alive. -/
theorem Request.dangles_iff {ctx ctx' : Context} {m : ModuleRef} (wf : ctx.WellFormed)
    {request : Request} {answers : List Handle} (admitted : ∀ h ∈ request.handles, ctx.Admits h)
    (run : (request.run ctx).result = .ok (answers, ctx')) (live : ∃ mr, ctx'.module m = .ok mr) :
    ctx'.Dangles m ↔ ctx.Dangles m ∨ request.Breaks ctx m := by
  obtain ⟨effect, wf', _⟩ := Request.effect wf admitted run
  have opened {b : BlockRef} {operation : Operation} (a : ctx.AppendsAlive ctx' b operation)
      (given : .block b ∈ request.handles) : ∃ br, ctx.block b = .ok br := by
    obtain ⟨⟨i, appends⟩, _⟩ := a
    obtain ⟨r, made, parent, _⟩ := appends.made
    obtain ⟨br, read, _⟩ := wf'.instruction_listed made
    exact (appends.toGrows.lives_iff (admitted _ given)).mp ⟨br, parent ▸ read⟩
  cases request with
  | eraseModule n =>
    obtain ⟨mr, read⟩ := live
    have erases : ctx.Erases n ctx' := effect
    exact erases.dangles_iff wf (erases.module.mp read).2
  | insertBlock b f before =>
    obtain ⟨built, rfl⟩ := Request.silent_eq_ok run
    obtain ⟨_, _, _, fr, _, known, _⟩ := Build.insertBlock_spec wf built
    rw [PlacesAlive.dangles_iff effect wf known]
    refine or_congr_right ⟨fun breaks => ⟨fr, known, breaks⟩, ?_⟩
    rintro ⟨fr', known', breaks⟩
    obtain rfl := Checked.unique known known'
    exact breaks
  | createCall callee args name b =>
    rw [AppendsAlive.dangles_iff effect wf (opened effect List.mem_cons_self) fun h mem => ?_]
    · simp [Operation.successors, Request.Breaks]
    · refine admitted h (List.mem_cons_of_mem _ ?_)
      simpa [Operation.handles, Operation.operands, Operation.successors, or_comm] using mem
  | createReturn value b =>
    rw [AppendsAlive.dangles_iff effect wf (opened effect List.mem_cons_self) fun h mem => ?_]
    · simp [Operation.successors, Request.Breaks]
    · refine admitted h (List.mem_cons_of_mem _ ?_)
      simpa [Operation.handles, Operation.operands, Operation.successors] using mem
  | createBranch target b =>
    rw [AppendsAlive.dangles_iff effect wf (opened effect (by simp [Request.handles]))
      fun h mem => ?_]
    · simp [Operation.successors, Request.Breaks]
    · obtain rfl := List.mem_singleton.mp mem
      exact admitted _ List.mem_cons_self
  | createCondBranch cond ifTrue ifFalse b =>
    rw [AppendsAlive.dangles_iff effect wf (opened effect (by simp [Request.handles]))
      fun h mem => ?_]
    · simp [Operation.successors, Request.Breaks]
    · refine admitted h ?_
      exact List.mem_append_left [.block b] mem
  | _ => simpa [Request.Breaks] using Extends.dangles_iff effect wf

namespace World

open Context

variable {w : World} {ctx : Context} {m : ModuleRef}

/-- A live module has a text exactly when nothing in it dangles, and then it has a verdict. Nothing
dangles in what the verifier accepts; what dangles is the target of a branch or an erased value; and
just the requests that break a module make it dangle. -/
theorem text_and_verdict_unless_dangling (reachable : w.Reachable) (mem : ctx ∈ w.contexts)
    (live : m ∈ ctx.liveModules) :
    ((∃ text, ctx.moduleText m = .ok text) ↔ ¬ctx.Dangles m) ∧
    (¬ctx.Dangles m → ∃ verdict, ctx.verifyModule m = .ok verdict) ∧
    (ctx.verifyModule m = .ok (.ok ()) → ¬ctx.Dangles m) ∧
    (∀ h, ctx.References m h → ctx.Lives h ∨ (∃ b, h = .block b) ∨
      ∃ u, h = .value .any u ∧ ctx.value u = .error (.erasedValue u.index)) ∧
    (∀ (request : Request) answers ctx', (∀ h ∈ request.handles, h ∈ w.handles) →
      (request.run ctx).result = .ok (answers, ctx') → m ∈ ctx'.liveModules →
        (ctx'.Dangles m ↔ ctx.Dangles m ∨ request.Breaks ctx m)) := by
  have wf := reachable.sound.wellFormed ctx mem
  obtain ⟨mr, read⟩ := mem_liveModules.mp live
  refine ⟨moduleText_eq_ok wf read, verifyModule_reads wf read, not_dangles_of_accepted wf, ?_, ?_⟩
  · exact fun h referred => Classical.or_iff_not_imp_left.mpr (referred.dead wf)
  · intro request answers ctx' known run survives
    refine Request.dangles_iff wf (fun h given => ?_) run (mem_liveModules.mp survives)
    exact reachable.sound.admits mem (reachable.sound.handles h (known h given))

/-- A block of the first module branches to a block of the second, which is erased then. -/
def danglingTarget : World := after [.context, .request 0 .voidType,
  .request 0 (.functionType ⟨⟨1⟩, 0⟩ [] false), .request 0 (.createModule ""),
  .request 0 (.createModule ""),
  .request 0 (.createFunction ⟨⟨⟨1⟩, 1⟩⟩ .external "" ⟨⟨1⟩, 0⟩),
  .request 0 (.createFunction ⟨⟨⟨1⟩, 1⟩⟩ .external "" ⟨⟨1⟩, 1⟩),
  .request 0 (.createBlock "" (some ⟨⟨⟨1⟩, 0⟩⟩) none),
  .request 0 (.createBlock "" (some ⟨⟨⟨1⟩, 1⟩⟩) none),
  .request 0 (.createBranch ⟨⟨1⟩, 1⟩ ⟨⟨1⟩, 0⟩), .request 0 (.eraseModule ⟨⟨1⟩, 1⟩)]

theorem danglingTarget_no_text : ∃ ctx ∈ danglingTarget.contexts, ∃ m ∈ ctx.liveModules,
    ctx.Dangles m ∧ (¬∃ text, ctx.moduleText m = .ok text) ∧
      ctx.verifyModule m = .error (.erasedBlock 1) := by
  have computed : (danglingTarget.contexts[0]?).any (fun ctx : Context =>
      ⟨⟨1⟩, 0⟩ ∈ ctx.liveModules ∧
        ctx.instruction ⟨⟨⟨1⟩, 2⟩⟩ = .ok ⟨⟨⟨1⟩, 0⟩, .br ⟨⟨1⟩, 1⟩⟩ ∧
        (ctx.block ⟨⟨1⟩, 0⟩).map (·.parent) = .ok (some ⟨⟨⟨1⟩, 0⟩⟩) ∧
        (ctx.function ⟨⟨⟨1⟩, 0⟩⟩).map (·.module) = .ok ⟨⟨1⟩, 0⟩ ∧
        ctx.block ⟨⟨1⟩, 1⟩ = .error (.erasedBlock 1) ∧
        ctx.verifyModule ⟨⟨1⟩, 0⟩ = .error (.erasedBlock 1)) = true := by decide +kernel
  obtain ⟨ctx, found, computed⟩ := (Option.any_eq_true _ _).mp computed
  obtain ⟨live, made, placed, function, erased, stuck⟩ := of_decide_eq_true computed
  obtain ⟨br, read, parent⟩ := Checked.map_eq_ok.mp placed
  obtain ⟨fr, known, home⟩ := Checked.map_eq_ok.mp function
  have mem : ctx ∈ danglingTarget.contexts := List.mem_of_getElem? found
  have dangles : ctx.Dangles ⟨⟨1⟩, 0⟩ := by
    refine ⟨.block ⟨⟨1⟩, 1⟩, ⟨_, _, _, fr, ⟨made, br, read, parent⟩, known, home, ?_⟩, ?_⟩
    · exact List.mem_singleton.mpr rfl
    · rintro ⟨r, alive⟩
      rw [erased] at alive
      cases alive
  have all := text_and_verdict_unless_dangling (reachable_after (by decide +kernel)) mem live
  exact ⟨ctx, mem, _, live, dangles, fun text => all.1.mp text dangles, stuck⟩

end World
end ModuleIR
