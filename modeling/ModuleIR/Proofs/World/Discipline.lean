import ModuleIR.Proofs.Verify.Acceptance
import ModuleIR.Proofs.Verify.Verdicts
import ModuleIR.Proofs.World.Forest

set_option autoImplicit false

/-!
# Terminators end their blocks

The check ahead of an instruction looks at the last instruction of the block only, and still no list
of instructions ever holds a terminator but at its end: the list of a block is empty at first, and it
gets one instruction at a time while its last one is no terminator. A block with a terminator
therefore keeps its list, and the state of a function says what its blocks end in.
-/
namespace ModuleIR

namespace Context

def Terminates (ctx : Context) (i : InstructionRef) : Prop :=
  ∃ o, ctx.operation i = .ok o ∧ o.isTerminator = true

def Terminated (ctx : Context) (is : List InstructionRef) : Prop :=
  ∃ body last, is = body ++ [last] ∧ ctx.Terminates last ∧ ∀ i ∈ body, ¬ctx.Terminates i

def EndsOnce (ctx : Context) (is : List InstructionRef) : Prop :=
  ∀ (k : Nat) i, is[k]? = some i → ctx.Terminates i → k + 1 = is.length

/-- The block lists these instructions, and one of them is a terminator. -/
def Closed (ctx : Context) (b : BlockRef) (is : List InstructionRef) : Prop :=
  ∃ br, ctx.block b = .ok br ∧ br.instructions = is ∧ ∃ i ∈ is, ctx.Terminates i

/-- What the state of a function says about it. -/
structure Graded (ctx : Context) (fr : FunctionRecord) (state : FunctionState) : Prop where
  wellFormed : state = .wellFormed ↔ fr.blocks ≠ [] ∧
    ∀ b ∈ fr.blocks, ∃ br, ctx.block b = .ok br ∧ ctx.Terminated br.instructions
  declared : state = .declared ↔ fr.blocks = []

/-- Blocks list instructions, none of which is a terminator but perhaps the last. -/
structure Disciplined (ctx : Context) : Prop where
  operations : ∀ b br, ctx.block b = .ok br → ∀ i ∈ br.instructions, ∃ o, ctx.operation i = .ok o
  bodies : ∀ b br, ctx.block b = .ok br → ∀ i ∈ br.instructions.dropLast, ¬ctx.Terminates i

variable {ctx ctx' : Context}

/-! ### Terminators -/

theorem terminates_of_bare {i : InstructionRef} {o o' : Operation}
    (read : ctx.operation i = .ok o) (read' : ctx'.operation i = .ok o') (bare : o'.bare = o.bare) :
    ctx'.Terminates i ↔ ctx.Terminates i := by
  have same : o'.isTerminator = o.isTerminator := by
    cases o <;> cases o' <;> cases bare <;> rfl
  simp [Terminates, read, read', same]

theorem Grows.operation (g : ctx.Grows ctx') {i : InstructionRef} {o : Operation}
    (read : ctx.operation i = .ok o) : ∃ o', ctx'.operation i = .ok o' ∧ o'.bare = o.bare := by
  obtain ⟨r, made, rfl⟩ := operation_eq_ok.mp read
  obtain ⟨r', made', _, bare⟩ := g.instruction made
  exact ⟨r'.operation, operation_eq_ok.mpr ⟨r', made', rfl⟩, bare⟩

theorem Grows.terminates (g : ctx.Grows ctx') {i : InstructionRef} {o : Operation}
    (read : ctx.operation i = .ok o) : ctx'.Terminates i ↔ ctx.Terminates i := by
  obtain ⟨o', read', bare⟩ := g.operation read
  exact terminates_of_bare read read' bare

theorem Erases.operation {m : ModuleRef} (e : ctx.Erases m ctx') {i : InstructionRef} {o : Operation}
    (read : ctx'.operation i = .ok o) : ctx.operation i = .ok o := by
  obtain ⟨r, made, rfl⟩ := operation_eq_ok.mp read
  exact operation_eq_ok.mpr ⟨r, (e.instruction.mp made).1, rfl⟩

theorem terminates_of_last {b : BlockRef} {br : BlockRecord} (read : ctx.block b = .ok br)
    {last : InstructionRef} : ctx.terminator? b = .ok (some last) ↔
      br.instructions.getLast? = some last ∧ ctx.Terminates last := by
  rw [terminator?_eq_some read, Terminates]
  simp only [operation_eq_ok, exists_exists_and_eq_and]

namespace Disciplined

variable (h : ctx.Disciplined) {b : BlockRef} {br : BlockRecord} (read : ctx.block b = .ok br)
include h read

theorem not_terminates (opened : ctx.terminator? b = .ok none) :
    ∀ i ∈ br.instructions, ¬ctx.Terminates i := by
  intro i mem ends
  rcases List.eq_nil_or_concat' br.instructions with empty | ⟨body, last, whole⟩
  · simp [empty] at mem
  · have inBody := h.bodies b br read i
    rw [whole] at mem inBody
    rw [List.dropLast_concat] at inBody
    rcases List.mem_append.mp mem with before | here
    · exact inBody before ends
    · obtain rfl := List.mem_singleton.mp here
      have found := (terminates_of_last read).mpr ⟨by rw [whole, List.getLast?_concat], ends⟩
      simp [opened] at found

theorem endsOnce : ctx.EndsOnce br.instructions := by
  intro k i place ends
  by_contra early
  have inside := (List.getElem?_eq_some_iff.mp place).1
  refine h.bodies b br read i (List.mem_of_getElem? (i := k) ?_) ends
  rw [List.getElem?_dropLast, if_pos (by omega), place]

theorem terminated_iff :
    ctx.Terminated br.instructions ↔ ∃ last, ctx.terminator? b = .ok (some last) := by
  simp only [terminates_of_last read]
  constructor
  · rintro ⟨body, last, whole, ends, _⟩
    exact ⟨last, by rw [whole, List.getLast?_concat], ends⟩
  · rintro ⟨last, final, ends⟩
    have whole := List.dropLast_append_getLast? last final
    exact ⟨br.instructions.dropLast, last, whole.symm, ends, h.bodies b br read⟩

end Disciplined

/-! ### Discipline is kept -/

theorem disciplined_new (id : ContextId) : (Context.new id).Disciplined where
  operations b br read := by simp [Context.new, block_eq_ok] at read
  bodies b br read := by simp [Context.new, block_eq_ok] at read

namespace Disciplined

variable (h : ctx.Disciplined)
include h

theorem elementary (e : ctx.Elementary ctx') : ctx'.Disciplined := by
  have growth := e.grows
  have old {b : BlockRef} {r : BlockRecord} (read : ctx.block b = .ok r) :
      ∀ i ∈ r.instructions, ∃ o, ctx'.operation i = .ok o := fun i mem =>
    (h.operations b r read i mem).elim fun o known => (growth.operation known).imp fun _ => And.left
  have kept {b : BlockRef} {r : BlockRecord} (read : ctx.block b = .ok r) {i : InstructionRef}
      (mem : i ∈ r.instructions) (none : ¬ctx.Terminates i) : ¬ctx'.Terminates i :=
    (h.operations b r read i mem).elim fun o known => mt (growth.terminates known).mp none
  refine ⟨fun b r' read' => ?_, fun b r' read' => ?_⟩ <;>
    rcases e.block_cases read' with ⟨r, read, same⟩ | empty | ⟨r, j, read, opened, made, same⟩
  · exact same ▸ old read
  · simp [empty]
  · simpa [same, or_imp, forall_and] using ⟨old read, made⟩
  · rw [same]
    exact fun i mem => kept read (List.dropLast_subset _ mem) (h.bodies b r read i mem)
  · simp [empty]
  · rw [same, List.dropLast_concat]
    exact fun i mem => kept read mem (h.not_terminates read opened i mem)

theorem erase (wf' : ctx'.WellFormed) {m : ModuleRef} (e : ctx.Erases m ctx') :
    ctx'.Disciplined where
  operations b br read' i mem := by
    obtain ⟨ir, made, _⟩ := wf'.block_instruction read' mem
    exact ⟨ir.operation, operation_eq_ok.mpr ⟨ir, made, rfl⟩⟩
  bodies b br read' i mem := by
    rintro ⟨o, known, ends⟩
    exact h.bodies b br (e.block.mp read').1 i mem ⟨o, e.operation known, ends⟩

/-- A block with a terminator takes no instruction. -/
theorem closed_elementary (e : ctx.Elementary ctx') {b : BlockRef} {is : List InstructionRef}
    (closed : ctx.Closed b is) : ctx'.Closed b is := by
  obtain ⟨br, read, rfl, i, mem, ends⟩ := closed
  obtain ⟨o, known⟩ := h.operations b br read i mem
  obtain ⟨br', read', becomes⟩ := e.grows.block read
  refine ⟨br', read', ?_, i, mem, (e.grows.terminates known).mpr ends⟩
  rcases e.block_cases read' with ⟨r, again, same⟩ | empty | ⟨r, j, again, opened, _⟩
  · rw [same, Checked.unique read again]
  · obtain ⟨more, whole⟩ := becomes.instructions
    rw [empty] at whole ⊢
    exact (List.append_eq_nil_iff.mp whole).1.symm
  · obtain rfl := Checked.unique read again
    exact absurd ends (h.not_terminates read opened i mem)

theorem builds (builds : ctx.Builds ctx') :
    ctx'.Disciplined ∧ ∀ b is, ctx.Closed b is → ctx'.Closed b is := by
  induction builds with
  | refl => exact ⟨h, fun _ _ closed => closed⟩
  | tail _ step ih =>
    exact ⟨ih.1.elementary step, fun b is closed => ih.1.closed_elementary step (ih.2 b is closed)⟩

omit h in
/-- An erasure takes away the closed blocks of the module and no others. -/
theorem closed_erase (wf' : ctx'.WellFormed) {m : ModuleRef} (e : ctx.Erases m ctx') {b : BlockRef}
    {is : List InstructionRef} (closed : ctx.Closed b is) (stays : ¬ctx.BlockBelongsTo m b) :
    ctx'.Closed b is := by
  obtain ⟨br, read, rfl, i, mem, o, known, ends⟩ := closed
  have read' : ctx'.block b = .ok br := e.block.mpr ⟨read, stays⟩
  obtain ⟨ir, made, _⟩ := wf'.block_instruction read' mem
  have known' : ctx'.operation i = .ok ir.operation := operation_eq_ok.mpr ⟨ir, made, rfl⟩
  obtain rfl := Checked.unique (e.operation known') known
  exact ⟨br, read', rfl, i, mem, _, known', ends⟩

end Disciplined

/-! ### States of functions -/

theorem allTerminated_reads (wf : ctx.WellFormed) {bs : List BlockRef}
    (live : ∀ b ∈ bs, ∃ br, ctx.block b = .ok br) : ∃ done, ctx.allTerminated bs = .ok done ∧
      (done = true ↔ ∀ b ∈ bs, ∃ last, ctx.terminator? b = .ok (some last)) := by
  induction bs with
  | nil => exact ⟨true, rfl, by simp⟩
  | cons b rest ih =>
    rw [List.forall_mem_cons] at live
    obtain ⟨⟨br, read⟩, others⟩ := live
    obtain ⟨last, found⟩ := terminator?_reads wf read
    cases last with
    | none => exact ⟨false, by simp [allTerminated, found], by simp [found]⟩
    | some last =>
      obtain ⟨done, checked, iff⟩ := ih others
      exact ⟨done, by simp [allTerminated, found, checked], by simp [found, iff]⟩

theorem Disciplined.functionState (h : ctx.Disciplined) (wf : ctx.WellFormed) {f : FunctionRef}
    {fr : FunctionRecord} (known : ctx.function f = .ok fr) :
    ∃ state, ctx.functionState f = .ok state ∧ ctx.Graded fr state := by
  have live : ∀ b ∈ fr.blocks, ∃ br, ctx.block b = .ok br := fun b mem =>
    (wf.function_block known mem).imp fun _ => And.left
  obtain ⟨done, checked, iff⟩ := allTerminated_reads wf live
  have ends : done = true ↔
      ∀ b ∈ fr.blocks, ∃ br, ctx.block b = .ok br ∧ ctx.Terminated br.instructions := by
    rw [iff]
    refine forall₂_congr fun b mem => ?_
    obtain ⟨br, read⟩ := live b mem
    simp [read, h.terminated_iff read]
  by_cases empty : fr.blocks = []
  · exact ⟨.declared, by simp [Context.functionState, known, empty], by simp [empty], by simp [empty]⟩
  · cases done with
    | true =>
      refine ⟨.wellFormed, by simp [Context.functionState, known, empty, checked], ?_, by simp [empty]⟩
      exact iff_of_true rfl ⟨empty, ends.mp rfl⟩
    | false =>
      refine ⟨.defining, by simp [Context.functionState, known, empty, checked], ?_, by simp [empty]⟩
      exact iff_of_false (by simp) fun ended => by simpa using ends.mpr ended.2

/-- A block with a terminator was erased, or it lists what it listed. -/
structure Settles (ctx ctx' : Context) : Prop where
  retains : ctx.Retains ctx'
  closed : ∀ b is, ctx.Closed b is → ctx'.Tombstone (.block b) ∨ ctx'.Closed b is

namespace Settles

instance : Std.Refl Settles := ⟨fun _ => ⟨fun _ gone => gone, fun _ _ closed => .inr closed⟩⟩

instance : IsTrans Context Settles where
  trans _ _ _ h h' := {
    retains := fun handle gone => h'.retains handle (h.retains handle gone)
    closed := fun b is closed =>
      (h.closed b is closed).elim (fun gone => .inl (h'.retains _ gone)) (h'.closed b is) }

end Settles
end Context

open Context

/-- After a request a block with a terminator lists what it listed, unless the request erased the
module that the block belongs to. -/
theorem Request.closed {ctx ctx' : Context} (wf : ctx.WellFormed) (h : ctx.Disciplined)
    {request : Request} {answers : List Handle} (admitted : ∀ h ∈ request.handles, ctx.Admits h)
    (run : (request.run ctx).result = .ok (answers, ctx')) {b : BlockRef} {is : List InstructionRef}
    (closed : ctx.Closed b is) :
    (∃ m, request = .eraseModule m ∧ ctx.BlockBelongsTo m b) ∨ ctx'.Closed b is := by
  rcases Request.builds_or_erases wf run with builds | ⟨m, mr, rfl, _, erases⟩
  · exact .inr ((h.builds builds).2 b is closed)
  · obtain ⟨_, wf', _⟩ := Request.effect wf admitted run
    by_cases goes : ctx.BlockBelongsTo m b
    · exact .inl ⟨m, rfl, goes⟩
    · exact .inr (Disciplined.closed_erase wf' erases closed goes)

theorem Request.settles {ctx ctx' : Context} (wf : ctx.WellFormed) (h : ctx.Disciplined)
    {request : Request} {answers : List Handle} (admitted : ∀ h ∈ request.handles, ctx.Admits h)
    (run : (request.run ctx).result = .ok (answers, ctx')) : ctx.Settles ctx' where
  retains := (Request.retains wf admitted run).1
  closed b is closed := by
    rcases Request.closed wf h admitted run closed with ⟨m, rfl, goes⟩ | kept
    · obtain ⟨built, _⟩ := Request.silent_eq_ok run
      obtain ⟨⟨mr, live⟩, erases, _⟩ := Build.eraseModule_spec wf built
      exact .inl ((erases.tombstone_block wf live).mpr (.inr ((ownsBlock_iff wf live).mpr goes)))
    · exact .inr kept

namespace World

variable {w w' : World} {ctx : Context} {k : Nat}

theorem Reachable.disciplined (reachable : w.Reachable) : ∀ ctx ∈ w.contexts, ctx.Disciplined :=
  reachable.invariant_of_elementary disciplined_new (fun _ _ step before => before.elementary step)
    fun _ _ _ _ wf' erases before => before.erase wf' erases

/-- Terminators end their blocks for good, and a live function has the state that its blocks say: it
is well-formed when it has blocks and each has its terminator, declared when it has none, and never
declared again. -/
theorem block_discipline (reachable : w.Reachable) (found : w.contexts[k]? = some ctx) :
    (∀ b br, ctx.block b = .ok br → ctx.EndsOnce br.instructions) ∧
    (∀ f fr, ctx.function f = .ok fr →
      ∃ state, ctx.functionState f = .ok state ∧ ctx.Graded fr state) ∧
    (∀ (request : Request) answers (ctx' : Context), (∀ h ∈ request.handles, h ∈ w.handles) →
      (request.run ctx).result = .ok (answers, ctx') → ∀ b is, ctx.Closed b is →
        (∃ m, request = .eraseModule m ∧ ctx.BlockBelongsTo m b) ∨ ctx'.Closed b is) ∧
    ∀ later, Relation.ReflTransGen Step w later → ∃ ctx', later.contexts[k]? = some ctx' ∧
      (∀ b is, ctx.Closed b is → ctx'.Tombstone (.block b) ∨ ctx'.Closed b is) ∧
      ∀ f fr, ctx.function f = .ok fr → ctx.functionState f ≠ .ok .declared →
        ctx'.functionState f ≠ .ok .declared := by
  have mem : ctx ∈ w.contexts := List.mem_of_getElem? found
  have sound := reachable.sound
  have wf := sound.wellFormed ctx mem
  have disciplined := reachable.disciplined ctx mem
  refine ⟨fun b br read => disciplined.endsOnce read,
    fun f fr known => disciplined.functionState wf known, fun request answers ctx' known run b is => ?_,
    fun later steps => ?_⟩
  · exact Request.closed wf disciplined (fun h given =>
      sound.admits mem (sound.handles h (known h given))) run
  obtain ⟨reachable', ctx', found', settles⟩ :=
    relates_of_steps (fun {w _ _ _ _} reachable mem known run =>
      Request.settles (reachable.sound.wellFormed _ mem) (reachable.disciplined _ mem)
        (fun h given => reachable.sound.admits mem (reachable.sound.handles h (known h given))) run)
      reachable steps found
  obtain ⟨_, ctx'', found'', inserts⟩ := relates_of_steps (fun reachable mem _ run =>
    Request.insertsOnly (reachable.sound.wellFormed _ mem) run) reachable steps found
  obtain rfl := Option.some.inj (found'.symm.trans found'')
  refine ⟨ctx', found', settles.closed, fun f fr known begun declared => ?_⟩
  obtain ⟨state, read, graded⟩ := disciplined.functionState wf known
  have some : fr.blocks ≠ [] := fun none => begun (read.trans (congrArg _ (graded.declared.mpr none)))
  rcases inserts.functions f fr known with gone | ⟨fr', known', _, blocks⟩
  · obtain ⟨fr', known', _⟩ := Checked.bind_eq_ok.mp declared
    obtain ⟨r, live, _⟩ := function_eq_ok.mp known'
    exact gone.not_lives ⟨r, live⟩
  · have mem' : ctx' ∈ later.contexts := List.mem_of_getElem? found'
    obtain ⟨state', read', graded'⟩ := (reachable'.disciplined ctx' mem').functionState
      (reachable'.sound.wellFormed ctx' mem') known'
    obtain rfl := Checked.unique read' declared
    have none' := graded'.declared.mp rfl
    rw [none'] at blocks
    exact some (List.sublist_nil.mp blocks)

/-- A block that was filled and terminated before it got its function. -/
def filledFirst : World := after [.context, .request 0 .voidType,
  .request 0 (.functionType ⟨⟨1⟩, 0⟩ [] false), .request 0 (.createModule "m"),
  .request 0 (.createFunction ⟨⟨⟨1⟩, 1⟩⟩ .external "f" ⟨⟨1⟩, 0⟩),
  .upcast (.value .any ⟨⟨1⟩, 0⟩), .request 0 (.createBlock "" none none),
  .request 0 (.createCall ⟨⟨1⟩, 0⟩ [] "" ⟨⟨1⟩, 0⟩), .request 0 (.createReturn none ⟨⟨1⟩, 0⟩),
  .request 0 (.insertBlock ⟨⟨1⟩, 0⟩ ⟨⟨⟨1⟩, 0⟩⟩ none)]

theorem filledFirst_disciplined : ∃ ctx br fr, filledFirst.contexts[0]? = some ctx ∧
    ctx.block ⟨⟨1⟩, 0⟩ = .ok br ∧ br.instructions.length = 2 ∧ ctx.EndsOnce br.instructions ∧
      ctx.function ⟨⟨⟨1⟩, 0⟩⟩ = .ok fr ∧ ctx.functionState ⟨⟨⟨1⟩, 0⟩⟩ = .ok .wellFormed ∧
        ctx.Graded fr .wellFormed := by
  have computed : (filledFirst.contexts[0]?).any (fun ctx : Context =>
      (ctx.block ⟨⟨1⟩, 0⟩).toOption.any (·.instructions.length = 2) ∧
        ctx.functionState ⟨⟨⟨1⟩, 0⟩⟩ = .ok .wellFormed) = true := by decide +kernel
  obtain ⟨ctx, found, computed⟩ := (Option.any_eq_true _ _).mp computed
  obtain ⟨listed, graded⟩ := of_decide_eq_true computed
  obtain ⟨br, read, listed⟩ := (Option.any_eq_true _ _).mp listed
  obtain ⟨ends, states, _⟩ := block_discipline (reachable_after (by decide +kernel)) found
  obtain ⟨fr, known, _⟩ := Checked.bind_eq_ok.mp graded
  obtain ⟨state, read', grades⟩ := states _ fr known
  obtain rfl := Checked.unique read' graded
  have read := Checked.toOption_eq_some.mp read
  exact ⟨ctx, br, fr, found, read, of_decide_eq_true listed, ends _ _ read, known, graded, grades⟩

end World
end ModuleIR
