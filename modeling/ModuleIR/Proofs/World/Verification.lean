import ModuleIR.Proofs.World.Dangling
import ModuleIR.Proofs.World.Discipline

set_option autoImplicit false

/-!
# What the verifier decides

The verifier tests local facts: the last instruction of each block, the parents of targets, the homes
of operands. In reachable worlds they add up to the structure of the module read off its lists: who
has no body has a linkage of declarations, every block of a body ends in its one terminator, operands
are free constants or come from the module or the function, returns give back the result type and
branches stay inside the body. The verifier accepts exactly the modules that are structured so, as
long as nothing dangles.
-/
namespace ModuleIR

theorem Linkage.validForDeclaration_iff {linkage : Linkage} :
    linkage.validForDeclaration = true ↔ linkage = .external ∨ linkage = .externalWeak := by
  cases linkage <;> simp [validForDeclaration]

namespace Context

/-- What the instructions of a function may use: free constants, what the module lists, also behind
pointer arithmetic, arguments of the function and instructions of its blocks. -/
inductive MayUse (ctx : Context) (mr : ModuleRecord) (fr : FunctionRecord) : ValueRef → Prop
  | int {v : ValueRef} {r : ValueRecord} {n : WideInt} (read : ctx.value v = .ok r)
      (kind : r.kind = .int n) : MayUse ctx mr fr v
  | bytes {v : ValueRef} {r : ValueRecord} {content : List UInt8} (read : ctx.value v = .ok r)
      (kind : r.kind = .bytes content) : MayUse ctx mr fr v
  | rooted {v : ValueRef} (rooted : ctx.RootedIn mr v) : MayUse ctx mr fr v
  | argument {a : ArgumentRef} (listed : a ∈ fr.args) : MayUse ctx mr fr a.value
  | instruction {b : BlockRef} {br : BlockRecord} {i : InstructionRef} (listed : b ∈ fr.blocks)
      (read : ctx.block b = .ok br) (mem : i ∈ br.instructions) : MayUse ctx mr fr i.value

def Performs (ctx : Context) (fr : FunctionRecord) (o : Operation) : Prop :=
  ∃ b ∈ fr.blocks, ∃ br, ctx.block b = .ok br ∧ ∃ i ∈ br.instructions, ctx.operation i = .ok o

def GivesBack (ctx : Context) (result : TypeRef) : Option ValueRef → Prop
  | none => ctx.shape result = .ok .void
  | some v => ∃ r, ctx.value v = .ok r ∧ r.type = result

/-- The body of a function is complete, and refers to what it may. -/
structure BodyStructured (ctx : Context) (mr : ModuleRecord) (f : FunctionRef)
    (fr : FunctionRecord) : Prop where
  state : ctx.functionState f = .ok .wellFormed
  operands : ∀ o, ctx.Performs fr o → ∀ u ∈ o.operands, ctx.MayUse mr fr u
  returns : ∀ value, ctx.Performs fr (.ret value) → ∃ result params variadic,
    ctx.shape fr.signature.type = .ok (.function result params variadic) ∧
      ctx.GivesBack result value
  targets : ∀ o, ctx.Performs fr o → ∀ b ∈ o.successors, b ∈ fr.blocks

structure FunctionStructured (ctx : Context) (mr : ModuleRecord) (f : FunctionRef)
    (fr : FunctionRecord) : Prop where
  declared : fr.blocks = [] → fr.linkage = .external ∨ fr.linkage = .externalWeak
  defined : fr.blocks ≠ [] → ctx.BodyStructured mr f fr

/-- What a module lists and gives no content may be declared, and every body is structured. -/
structure Structured (ctx : Context) (mr : ModuleRecord) : Prop where
  globals : ∀ g ∈ mr.globals, ∃ gr, ctx.global g = .ok gr ∧
    (gr.initializer = none → gr.linkage = .external ∨ gr.linkage = .externalWeak)
  functions : ∀ f ∈ mr.functions, ∃ fr, ctx.function f = .ok fr ∧ ctx.FunctionStructured mr f fr

def Passes (ctx : Context) (b b' : BlockRef) : Prop :=
  ∃ br, ctx.block b = .ok br ∧ ∃ i ∈ br.instructions, ∃ o, ctx.operation i = .ok o ∧
    b' ∈ o.successors

variable {ctx : Context} {m : ModuleRef} {mr : ModuleRecord} {f : FunctionRef} {fr : FunctionRecord}
  {v : ValueRef}

/-! ### Operands -/

/-- No pointer arithmetic is free, as its base is a pointer: what is free is an integer or bytes. -/
theorem AllWellMade.free_cases (made : ctx.AllWellMade) (home : ctx.Anchored v .free) :
    ∃ r, ctx.value v = .ok r ∧ ((∃ n, r.kind = .int n) ∨ ∃ content, r.kind = .bytes content) := by
  generalize free : Anchor.free = anchor at home
  induction home with
  | int read kind => exact ⟨_, read, .inl ⟨_, kind⟩⟩
  | bytes read kind => exact ⟨_, read, .inr ⟨_, kind⟩⟩
  | @elementPtr v r e anchor read kind base ih =>
    have suits := (made v r read).1
    rw [kind] at suits
    obtain ⟨br, _, _, based, pointed, _⟩ := suits
    obtain ⟨br', based', content⟩ := ih free
    obtain rfl := Checked.unique based based'
    have suits := (made e.base br based).1
    rcases content with ⟨n, int⟩ | ⟨content, bytes⟩
    · rw [int] at suits
      cases Checked.unique pointed suits.2
    · rw [bytes] at suits
      obtain ⟨_, array, _⟩ := suits
      cases Checked.unique pointed array
  | global | function | argument | placed | detached => cases free

section Function

variable (wf : ctx.WellFormed) (live : ctx.module m = .ok mr) (known : ctx.function f = .ok fr)
include wf known

theorem mayUse_of_anchored (home : ctx.Anchored v (.function f)) : ctx.MayUse mr fr v := by
  obtain ⟨r, read⟩ := home.live
  have content := (anchored_iff read).mp home
  have constant := home.not_function wf read
  cases kind : r.kind with
  | argument a =>
    rw [kind] at content
    obtain ⟨fr', known', listed⟩ :=
      wf.argument_listed (argument_eq_ok.mpr ⟨r, read, kind⟩ : ctx.argument ⟨v⟩ = .ok a)
    rw [← Anchor.function.inj content] at known'
    obtain rfl := Checked.unique known known'
    exact .argument listed
  | instruction i =>
    rw [kind] at content
    have instruction : ctx.instruction ⟨v⟩ = .ok i := instruction_eq_ok.mpr ⟨r, read, kind⟩
    obtain ⟨br, held, same⟩ := content
    cases parent : br.parent with
    | none =>
      rw [parent] at same
      cases same
    | some g =>
      rw [parent] at same
      have placed : ctx.PlacedIn ⟨v⟩ i f := ⟨instruction, br, held, parent.trans (by
        rw [Anchor.function.inj same])⟩
      obtain ⟨_, b, listed, br', read', mem⟩ := (wf.placedIn_iff known).mp placed
      exact .instruction listed read' mem
  | int | bytes | elementPtr | global | function =>
    rw [kind] at constant
    cases constant
  | erased => exact absurd kind (value_eq_ok.mp read).2.2

include live

/-- The home of an operand is within scope exactly when the instruction may use the operand. -/
theorem mayUse_iff (made : ctx.AllWellMade) : ctx.MayUse mr fr v ↔
    ∃ anchor, ctx.Anchored v anchor ∧ anchor.Within m (some f) true := by
  constructor
  · intro use
    cases use with
    | int read kind => exact ⟨.free, .int read kind, trivial⟩
    | bytes read kind => exact ⟨.free, .bytes read kind, trivial⟩
    | rooted rooted => exact ⟨.module m, (rootedIn_iff wf live).mp rooted, rfl⟩
    | @argument a listed =>
      obtain ⟨ar, argued, parent⟩ := wf.function_argument known listed
      obtain ⟨r, read, kind⟩ := argument_eq_ok.mp argued
      exact ⟨.function ar.parent, .argument read kind, congrArg some parent.symm⟩
    | @instruction b br i listed block mem =>
      obtain ⟨br', block', parent⟩ := wf.function_block known listed
      obtain rfl := Checked.unique block block'
      obtain ⟨ir, instruction, home⟩ := wf.block_instruction block mem
      obtain ⟨r, read, kind⟩ := instruction_eq_ok.mp instruction
      exact ⟨.function f, .placed read kind (home ▸ block) parent, rfl⟩
  · rintro ⟨anchor, home, within⟩
    cases anchor with
    | free =>
      obtain ⟨r, read, ⟨n, kind⟩ | ⟨content, kind⟩⟩ := made.free_cases home
      · exact .int read kind
      · exact .bytes read kind
    | module n =>
      obtain rfl : n = m := within
      exact .rooted ((rootedIn_iff wf live).mpr home)
    | function g =>
      obtain rfl : f = g := Option.some.inj within
      exact mayUse_of_anchored wf known home
    | detached => cases within

end Function

/-! ### Returns and targets -/

theorem returnFits_iff {expected : TypeRef} {value : Option ValueRef} :
    ctx.returnFits expected value = .ok true ↔ ctx.GivesBack expected value := by
  cases value with
  | none =>
    simp only [returnFits, GivesBack, Checked.bind_eq_ok, Checked.pure_eq, Except.ok.injEq]
    constructor
    · rintro ⟨shape, read, isVoid⟩
      cases shape with
      | void => exact read
      | _ => cases isVoid
    · exact fun read => ⟨.void, read, rfl⟩
  | some v =>
    simp [returnFits, GivesBack, Checked.bind_eq_ok, valueType_eq_ok]

theorem WellFormed.parent_iff (wf : ctx.WellFormed) (known : ctx.function f = .ok fr) {b : BlockRef} :
    (∃ br, ctx.block b = .ok br ∧ br.parent = some f) ↔ b ∈ fr.blocks := by
  constructor
  · rintro ⟨br, read, parent⟩
    obtain ⟨fr', known', mem⟩ := wf.block_listed read parent
    obtain rfl := Checked.unique known known'
    exact mem
  · exact fun mem => wf.function_block known mem

/-! ### Bodies -/

theorem blockAccepted_iff (disciplined : ctx.Disciplined) {expected : TypeRef} {b : BlockRef}
    {br : BlockRecord} (read : ctx.block b = .ok br) :
    ctx.BlockAccepted m f expected br ↔ ctx.Terminated br.instructions ∧
      ∀ i ∈ br.instructions, ∃ o, ctx.operation i = .ok o ∧ ctx.OperationAccepted m f expected o := by
  have each : (∀ i ∈ br.instructions, ∃ r, ctx.instruction i = .ok r ∧
      ctx.OperationAccepted m f expected r.operation) ↔ ∀ i ∈ br.instructions, ∃ o,
        ctx.operation i = .ok o ∧ ctx.OperationAccepted m f expected o := by
    simp only [operation_eq_ok, exists_exists_and_eq_and]
  rw [disciplined.terminated_iff read, ← each]
  simp only [terminator?_eq_some read]
  constructor
  · intro accepted
    have final := List.getLast?_eq_some_getLast accepted.nonempty
    exact ⟨⟨_, final, accepted.terminated _ final⟩, accepted.instructions⟩
  · rintro ⟨⟨last, final, ends⟩, accepted⟩
    refine ⟨fun empty => by simp [empty] at final, fun i mem => ?_, accepted⟩
    obtain rfl := Option.some.inj (final.symm.trans mem)
    exact ends

section Body

variable (wf : ctx.WellFormed) (made : ctx.AllWellMade) (disciplined : ctx.Disciplined)
  (live : ctx.module m = .ok mr) (known : ctx.function f = .ok fr)
include wf made live known

theorem operationAccepted_iff {result : TypeRef} {o : Operation} :
    ctx.OperationAccepted m f result o ↔ (∀ u ∈ o.operands, ctx.MayUse mr fr u) ∧
      (∀ b ∈ o.successors, b ∈ fr.blocks) ∧
        ∀ value, o = .ret value → ctx.GivesBack result value := by
  simp only [mayUse_iff wf live known made, ← wf.parent_iff known, ← returnFits_iff]
  exact ⟨fun h => ⟨h.operands, h.targets, h.returned⟩, fun ⟨operands, targets, returned⟩ =>
    ⟨operands, targets, returned⟩⟩

include disciplined

theorem bodyStructured_iff (defined : fr.blocks ≠ []) : ctx.BodyStructured mr f fr ↔
    ∃ result params variadic,
      ctx.shape fr.signature.type = .ok (.function result params variadic) ∧
        ∀ b ∈ fr.blocks, ∃ br, ctx.block b = .ok br ∧ ctx.BlockAccepted m f result br := by
  obtain ⟨state, read, graded⟩ := disciplined.functionState wf known
  obtain ⟨result, params, variadic, shaped⟩ := (wf.functionSound known).signature
  have judged {o : Operation} : ctx.OperationAccepted m f result o ↔ _ :=
    operationAccepted_iff wf made live known
  constructor
  · intro body
    refine ⟨result, params, variadic, shaped, fun b listed => ?_⟩
    obtain rfl := Checked.unique read body.state
    obtain ⟨br, block, terminated⟩ := (graded.wellFormed.mp rfl).2 b listed
    refine ⟨br, block, (blockAccepted_iff disciplined block).mpr ⟨terminated, fun i mem => ?_⟩⟩
    obtain ⟨o, performed⟩ := disciplined.operations b br block i mem
    have performs : ctx.Performs fr o := ⟨b, listed, br, block, i, mem, performed⟩
    refine ⟨o, performed, judged.mpr ⟨body.operands o performs, body.targets o performs, ?_⟩⟩
    rintro value rfl
    obtain ⟨result', _, _, shaped', fits⟩ := body.returns value performs
    obtain ⟨rfl, _⟩ := Shape.function.inj (Checked.unique shaped shaped')
    exact fits
  · rintro ⟨result', _, _, shaped', accepted⟩
    obtain ⟨rfl, _⟩ := Shape.function.inj (Checked.unique shaped shaped')
    have blocks (b : BlockRef) (listed : b ∈ fr.blocks) (br : BlockRecord)
        (block : ctx.block b = .ok br) : ctx.Terminated br.instructions ∧
          ∀ i ∈ br.instructions, ∃ o, ctx.operation i = .ok o ∧
            ctx.OperationAccepted m f result o := by
      obtain ⟨br', block', sound⟩ := accepted b listed
      obtain rfl := Checked.unique block block'
      exact (blockAccepted_iff disciplined block).mp sound
    have each (o : Operation) (performs : ctx.Performs fr o) :
        (∀ u ∈ o.operands, ctx.MayUse mr fr u) ∧ (∀ b ∈ o.successors, b ∈ fr.blocks) ∧
          ∀ value, o = .ret value → ctx.GivesBack result value := by
      obtain ⟨b, listed, br, block, i, mem, performed⟩ := performs
      obtain ⟨o', performed', sound⟩ := (blocks b listed br block).2 i mem
      obtain rfl := Checked.unique performed performed'
      exact judged.mp sound
    refine ⟨?_, fun o performs => (each o performs).1, fun value performs => ?_,
      fun o performs => (each o performs).2.1⟩
    · rw [read, graded.wellFormed.mpr ⟨defined, fun b listed => ?_⟩]
      obtain ⟨br, block, _⟩ := wf.function_block known listed
      exact ⟨br, block, (blocks b listed br block).1⟩
    · exact ⟨result, params, variadic, shaped, (each _ performs).2.2 value rfl⟩

end Body

/-- Control that is in the body of a structured function stays there. -/
theorem FunctionStructured.closed (structured : ctx.FunctionStructured mr f fr) {b b' : BlockRef}
    (listed : b ∈ fr.blocks) (path : Relation.ReflTransGen ctx.Passes b b') : b' ∈ fr.blocks := by
  have body := structured.defined (List.ne_nil_of_mem listed)
  induction path with
  | refl => exact listed
  | tail _ passes ih =>
    obtain ⟨br, block, i, mem, o, performed, target⟩ := passes
    exact body.targets o ⟨_, ih, br, block, i, mem, performed⟩ _ target

/-! ### Functions, globals and modules -/

section Module

variable (wf : ctx.WellFormed) (made : ctx.AllWellMade) (disciplined : ctx.Disciplined)
  (live : ctx.module m = .ok mr)

include wf

theorem globalAccepted_iff {g : GlobalRef} {gr : GlobalRecord} (known : ctx.global g = .ok gr)
    (home : gr.module = m) : ctx.GlobalAccepted m gr ↔
      (gr.initializer = none → gr.linkage = .external ∨ gr.linkage = .externalWeak) := by
  simp only [← Linkage.validForDeclaration_iff]
  refine ⟨fun accepted => accepted.declared, fun declared => ⟨declared, fun init given => ?_⟩⟩
  rcases ((wf.globalSound known).initializer init given).home with free | owned
  · exact ⟨.free, free, trivial⟩
  · exact ⟨.module gr.module, owned, home⟩

include made disciplined live

theorem functionAccepted_iff (known : ctx.function f = .ok fr) (home : fr.module = m) :
    ctx.FunctionAccepted f fr ↔ ctx.FunctionStructured mr f fr := by
  have body := bodyStructured_iff wf made disciplined live known
  constructor
  · exact fun accepted => ⟨fun none => Linkage.validForDeclaration_iff.mp (accepted.declared none),
      fun defined => (body defined).mpr (home ▸ accepted.defined defined)⟩
  · exact fun structured => ⟨fun none =>
      Linkage.validForDeclaration_iff.mpr (structured.declared none),
      fun defined => home ▸ (body defined).mp (structured.defined defined)⟩

/-- The verifier accepts exactly the modules that are structured as they should be. -/
theorem structured_iff : ctx.verifyModule m = .ok (.ok ()) ↔ ctx.Structured mr := by
  have globals (g : GlobalRef) (listed : g ∈ mr.globals) :
      (∃ gr, ctx.global g = .ok gr ∧ ctx.GlobalAccepted m gr) ↔ ∃ gr, ctx.global g = .ok gr ∧
        (gr.initializer = none → gr.linkage = .external ∨ gr.linkage = .externalWeak) := by
    obtain ⟨gr, known, home⟩ := wf.module_global live listed
    simp [known, globalAccepted_iff wf known home]
  have functions (f : FunctionRef) (listed : f ∈ mr.functions) :
      (∃ fr, ctx.function f = .ok fr ∧ ctx.FunctionAccepted f fr) ↔
        ∃ fr, ctx.function f = .ok fr ∧ ctx.FunctionStructured mr f fr := by
    obtain ⟨fr, known, home⟩ := wf.module_function live listed
    simp [known, functionAccepted_iff wf made disciplined live known home]
  rw [verifyModule_eq_ok wf]
  constructor
  · rintro ⟨mr', live', accepted⟩
    obtain rfl := Checked.unique live live'
    exact ⟨fun g mem => (globals g mem).mp (accepted.globals g mem),
      fun f mem => (functions f mem).mp (accepted.functions f mem)⟩
  · intro structured
    exact ⟨mr, live, fun g mem => (globals g mem).mpr (structured.globals g mem),
      fun f mem => (functions f mem).mpr (structured.functions f mem)⟩

end Module

end Context

namespace World

open Context

variable {w : World} {ctx : Context} {m : ModuleRef} {mr : ModuleRecord}

/-- A live module in which nothing dangles has a verdict, and the verdict is good exactly when the
module is structured as it should be. Control stays in the blocks of a function that is accepted. -/
theorem accepted_iff_structured (reachable : w.Reachable) (mem : ctx ∈ w.contexts)
    (live : ctx.module m = .ok mr) (sound : ¬ctx.Dangles m) :
    ∃ verdict, ctx.verifyModule m = .ok verdict ∧ (verdict = .ok () ↔ ctx.Structured mr) ∧
      ∀ f ∈ mr.functions, ∀ fr, ctx.function f = .ok fr →
        verdict = .ok () ∨ ctx.verifyFunction f = .ok (.ok ()) →
          ∀ b ∈ fr.blocks, (∃ br, ctx.block b = .ok br ∧ ctx.Terminated br.instructions) ∧
            ∀ b', Relation.ReflTransGen ctx.Passes b b' → b' ∈ fr.blocks := by
  have wf := reachable.sound.wellFormed ctx mem
  have made := reachable.allWellMade ctx mem
  have disciplined := reachable.disciplined ctx mem
  obtain ⟨verdict, judged⟩ := verifyModule_reads wf live sound
  have good : verdict = .ok () ↔ ctx.Structured mr := by
    rw [← structured_iff wf made disciplined live, judged, Except.ok.injEq]
  refine ⟨verdict, judged, good, fun f listed fr known accepted b block => ?_⟩
  have structured : ctx.FunctionStructured mr f fr := by
    rcases accepted with all | one
    · obtain ⟨fr', known', structured⟩ := (good.mp all).functions f listed
      obtain rfl := Checked.unique known known'
      exact structured
    · obtain ⟨fr', known', accepted⟩ := (verifyFunction_eq_ok wf).mp one
      obtain rfl := Checked.unique known known'
      obtain ⟨fr', known', home⟩ := wf.module_function live listed
      obtain rfl := Checked.unique known known'
      exact (functionAccepted_iff wf made disciplined live known home).mp accepted
  obtain ⟨state, read, graded⟩ := disciplined.functionState wf known
  obtain rfl := Checked.unique read (structured.defined (List.ne_nil_of_mem block)).state
  exact ⟨(graded.wellFormed.mp rfl).2 b block, fun b' path => structured.closed block path⟩

/-- A function that calls itself and branches on to its second block, which returns. -/
def twoBlocks : World := after [.context, .request 0 .voidType,
  .request 0 (.functionType ⟨⟨1⟩, 0⟩ [] false), .request 0 (.createModule "m"),
  .request 0 (.createFunction ⟨⟨⟨1⟩, 1⟩⟩ .external "f" ⟨⟨1⟩, 0⟩),
  .upcast (.value .any ⟨⟨1⟩, 0⟩),
  .request 0 (.createBlock "entry" (some ⟨⟨⟨1⟩, 0⟩⟩) none),
  .request 0 (.createBlock "exit" (some ⟨⟨⟨1⟩, 0⟩⟩) none),
  .request 0 (.createCall ⟨⟨1⟩, 0⟩ [] "" ⟨⟨1⟩, 0⟩),
  .request 0 (.createBranch ⟨⟨1⟩, 1⟩ ⟨⟨1⟩, 0⟩), .request 0 (.createReturn none ⟨⟨1⟩, 1⟩)]

theorem twoBlocks_structured : ∃ ctx ∈ twoBlocks.contexts, ∃ mr, ctx.module ⟨⟨1⟩, 0⟩ = .ok mr ∧
    ¬ctx.Dangles ⟨⟨1⟩, 0⟩ ∧ ctx.Structured mr ∧
      ∀ b, Relation.ReflTransGen ctx.Passes ⟨⟨1⟩, 0⟩ b → b = ⟨⟨1⟩, 0⟩ ∨ b = ⟨⟨1⟩, 1⟩ := by
  have computed : (twoBlocks.contexts[0]?).any (fun ctx : Context =>
      (ctx.module ⟨⟨1⟩, 0⟩).map (·.functions) = .ok [⟨⟨⟨1⟩, 0⟩⟩] ∧
        (ctx.function ⟨⟨⟨1⟩, 0⟩⟩).map (·.blocks) = .ok [⟨⟨1⟩, 0⟩, ⟨⟨1⟩, 1⟩] ∧
        ctx.verifyModule ⟨⟨1⟩, 0⟩ = .ok (.ok ())) = true := by decide +kernel
  obtain ⟨ctx, found, computed⟩ := (Option.any_eq_true _ _).mp computed
  obtain ⟨functions, blocks, accepted⟩ := of_decide_eq_true computed
  obtain ⟨mr, live, functions⟩ := Checked.map_eq_ok.mp functions
  obtain ⟨fr, known, blocks⟩ := Checked.map_eq_ok.mp blocks
  have mem : ctx ∈ twoBlocks.contexts := List.mem_of_getElem? found
  have reachable : twoBlocks.Reachable := reachable_after (by decide +kernel)
  have sound := not_dangles_of_accepted (reachable.sound.wellFormed ctx mem) accepted
  obtain ⟨verdict, judged, good, stays⟩ := accepted_iff_structured reachable mem live sound
  obtain rfl := Checked.unique judged accepted
  refine ⟨ctx, mem, mr, live, sound, good.mp rfl, fun b path => ?_⟩
  have inside := (stays _ (by simp [functions]) fr known (.inl rfl) _ (by simp [blocks])).2 b path
  simpa [blocks] using inside

end World
end ModuleIR
