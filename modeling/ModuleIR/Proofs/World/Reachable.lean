import Mathlib.Logic.Relation
import ModuleIR.Proofs.World.Effects

set_option autoImplicit false

/-!
# Reachable worlds

A world is a number of contexts with the handles that are around. It grows by new contexts, by
requests made on any context with any of the handles, and by what accessors give. Nothing ties a
handle to the context it is used with, so that handles of one context may be passed to another.

In every reachable world the contexts are numbered by position and well-formed, and every handle that
is around or in an instruction names an entry of the context that it carries.
-/
namespace ModuleIR

namespace Context

variable {ctx : Context}

theorem function_of_find {m : ModuleRef} {name : String} {f : FunctionRef}
    (found : ctx.findFunction? m name = .ok (some f)) : ∃ r, ctx.function f = .ok r := by
  obtain ⟨mr, _, found⟩ := Checked.bind_eq_ok.mp found
  split at found
  · rename_i v bound
    obtain ⟨r, read, found⟩ := Checked.bind_eq_ok.mp found
    cases kind : r.kind with
    | function fr =>
      obtain rfl : (⟨v⟩ : FunctionRef) = f := by simpa [kind] using found
      exact ⟨fr, function_eq_ok.mpr ⟨r, read, kind⟩⟩
    | _ => simp [kind] at found
  · cases found

theorem global_of_find {m : ModuleRef} {name : String} {g : GlobalRef}
    (found : ctx.findGlobal? m name = .ok (some g)) : ∃ r, ctx.global g = .ok r := by
  obtain ⟨mr, _, found⟩ := Checked.bind_eq_ok.mp found
  split at found
  · rename_i v bound
    obtain ⟨r, read, found⟩ := Checked.bind_eq_ok.mp found
    cases kind : r.kind with
    | global gr =>
      obtain rfl : (⟨v⟩ : GlobalRef) = g := by simpa [kind] using found
      exact ⟨gr, global_eq_ok.mpr ⟨r, read, kind⟩⟩
    | _ => simp [kind] at found
  · cases found

theorem mem_liveModules {m : ModuleRef} :
    m ∈ ctx.liveModules ↔ ∃ r, ctx.module m = .ok r := by
  simp only [liveModules, List.mem_map, List.mem_filter, List.mem_range, module_eq_ok]
  constructor
  · rintro ⟨i, ⟨_, some⟩, rfl⟩
    cases stored : ctx.modules[i]? with
    | none => simp [stored] at some
    | some place =>
      cases place with
      | none => simp [stored] at some
      | some r => exact ⟨r, rfl, rfl⟩
  · rintro ⟨r, owner, stored⟩
    refine ⟨m.index, ⟨(Array.getElem?_eq_some_iff.mp stored).1, by simp [stored]⟩, ?_⟩
    rw [← owner]

theorem holds_liveModule {m : ModuleRef} (live : m ∈ ctx.liveModules) : ctx.Holds (.module m) := by
  obtain ⟨r, read⟩ := mem_liveModules.mp live
  exact holds_module read

end Context

structure World where
  contexts : List Context := []
  handles : List Handle := []
  deriving DecidableEq

namespace World

/-- One public operation that does not end in a violation. Fewer than `2 ^ 32` new contexts are meant,
like entries of an arena, so that no number of a context is given out again. -/
inductive Step (w : World) : World → Prop
  | context :
      Step w { w with contexts := w.contexts ++ [.new ⟨w.contexts.length + 1⟩] }
  | request {k : Nat} {ctx ctx' : Context} {request : Request} {answers : List Handle}
      (found : w.contexts[k]? = some ctx) (known : ∀ h ∈ request.handles, h ∈ w.handles)
      (run : (request.run ctx).result = .ok (answers, ctx')) :
      Step w { contexts := w.contexts.set k ctx', handles := w.handles ++ answers }
  | access {k : Nat} {ctx : Context} {h h' : Handle} (found : w.contexts[k]? = some ctx)
      (known : h ∈ w.handles) (yields : ctx.Yields h h') :
      Step w { w with handles := w.handles ++ [h'] }
  | liveModule {k : Nat} {ctx : Context} {m : ModuleRef} (found : w.contexts[k]? = some ctx)
      (live : m ∈ ctx.liveModules) : Step w { w with handles := w.handles ++ [.module m] }

/-- What any sequence of public operations leads to. -/
inductive Reachable : World → Prop
  | empty : Reachable {}
  | step {w w' : World} (before : Reachable w) (step : w.Step w') : Reachable w'

def Names (w : World) (h : Handle) : Prop := ∃ ctx ∈ w.contexts, ctx.Holds h

structure Sound (w : World) : Prop where
  ids : ∀ (k : Nat) ctx, w.contexts[k]? = some ctx → ctx.id = ⟨k + 1⟩
  wellFormed : ∀ ctx ∈ w.contexts, ctx.WellFormed
  handles : ∀ h ∈ w.handles, w.Names h
  references : ∀ ctx ∈ w.contexts, ∀ i r, ctx.instruction i = .ok r →
    ∀ h ∈ r.operation.handles, w.Names h

namespace Sound

variable {w w' : World}

theorem unique (sound : w.Sound) {ctx ctx' : Context} (mem : ctx ∈ w.contexts)
    (mem' : ctx' ∈ w.contexts) (same : ctx.id = ctx'.id) : ctx = ctx' := by
  obtain ⟨k, found⟩ := List.mem_iff_getElem?.mp mem
  obtain ⟨k', found'⟩ := List.mem_iff_getElem?.mp mem'
  have numbers := (sound.ids k ctx found).symm.trans (same.trans (sound.ids k' ctx' found'))
  obtain rfl : k = k' := by simpa using numbers
  exact Option.some.inj (found.symm.trans found')

theorem admits (sound : w.Sound) {ctx : Context} (mem : ctx ∈ w.contexts) {h : Handle}
    (names : w.Names h) : ctx.Admits h := by
  intro owner
  obtain ⟨ctx', mem', held⟩ := names
  obtain rfl := sound.unique mem mem' (owner.symm.trans held.1)
  exact held.2

theorem admits_known (sound : w.Sound) {ctx : Context} (mem : ctx ∈ w.contexts) {hs : List Handle}
    (known : ∀ h ∈ hs, h ∈ w.handles) : ∀ h ∈ hs, ctx.Admits h :=
  fun h given => sound.admits mem (sound.handles h (known h given))

/-! ### What accessors give -/

/-- The handles in a value name what they should, but for those in an instruction. -/
theorem holds_content {ctx : Context} (wf : ctx.WellFormed) {v : ValueRef} {r : ValueRecord}
    {h : Handle} (read : ctx.value v = .ok r) (mem : h ∈ r.kind.handles) :
    ctx.Holds h ∨ ∃ i, r.kind = .instruction i ∧ h ∈ i.operation.handles := by
  cases kind : r.kind with
  | int | bytes | erased => simp [kind, ValueKind.handles] at mem
  | elementPtr e =>
    have sound := wf.elementPtrSound read kind
    rw [kind] at mem
    obtain rfl | rfl | ⟨u, inside, rfl⟩ : h = .type .any e.sourceType ∨ h = .value .any e.base ∨
        ∃ u ∈ e.indices, Handle.value .any u = h := by simpa [ValueKind.handles] using mem
    · obtain ⟨shape, shaped⟩ := sound.sourceType
      exact .inl (Context.holds_type shaped rfl)
    · obtain ⟨base, held, _⟩ := sound.base
      exact .inl (Context.holds_value held rfl)
    · obtain ⟨index, _, held, _⟩ := sound.indices u inside
      exact .inl (Context.holds_value held rfl)
  | global g =>
    have sound := (wf.valueSound read).kind
    rw [kind] at sound mem
    obtain rfl | rfl | ⟨init, inside, rfl⟩ : h = .module g.module ∨ h = .type .any g.valueType ∨
        ∃ init, g.initializer = some init ∧ Handle.value .constant init.value = h := by
      simpa [ValueKind.handles] using mem
    · obtain ⟨mr, held, _⟩ := sound.listed
      exact .inl (Context.holds_module held)
    · obtain ⟨shape, shaped⟩ := sound.valueType
      exact .inl (Context.holds_type shaped rfl)
    · obtain ⟨record, held, constant⟩ := (sound.initializer init inside).constant
      exact .inl (Context.holds_value held constant)
  | function f =>
    have sound := (wf.valueSound read).kind
    rw [kind] at sound mem
    simp only [ValueKind.handles, List.cons_append, List.mem_cons, List.mem_append,
      List.mem_map] at mem
    rcases mem with rfl | rfl | (⟨a, inside, rfl⟩ | ⟨b, inside, rfl⟩) | named
    · obtain ⟨mr, held, _⟩ := sound.listed
      exact .inl (Context.holds_module held)
    · obtain ⟨_, _, _, shaped⟩ := sound.signature
      exact .inl (Context.holds_type shaped rfl)
    · obtain ⟨ar, held, _⟩ := sound.args a inside
      obtain ⟨record, held', kind'⟩ := Context.argument_eq_ok.mp held
      exact .inl (Context.holds_value held' (kind' ▸ rfl))
    · obtain ⟨br, held, _⟩ := sound.blocks b inside
      exact .inl (Context.holds_block held)
    · exact .inl (sound.names h named)
  | argument a =>
    have sound := (wf.valueSound read).kind
    rw [kind] at sound mem
    obtain ⟨fr, known, _⟩ := sound
    obtain rfl := List.mem_singleton.mp mem
    exact .inl (Context.holds_function known rfl)
  | instruction i =>
    have sound := (wf.valueSound read).kind
    rw [kind] at sound mem
    rcases List.mem_cons.mp mem with rfl | inside
    · obtain ⟨br, held, _⟩ := sound.listed
      exact .inl (Context.holds_block held)
    · exact .inr ⟨i, rfl, inside⟩

theorem yields (sound : w.Sound) {ctx : Context} (mem : ctx ∈ w.contexts) {h h' : Handle}
    (names : w.Names h) (y : ctx.Yields h h') : w.Names h' := by
  have wf := sound.wellFormed ctx mem
  cases y with
  | typeView read accepted => exact ⟨ctx, mem, Context.holds_type read accepted⟩
  | typeUpcast =>
    obtain ⟨home, mem', owner, shape, stored, _⟩ := names
    exact ⟨home, mem', owner, shape, stored, rfl⟩
  | innerType read inside =>
    obtain ⟨shape, shaped⟩ := wf.hasType_inner read inside
    exact ⟨ctx, mem, Context.holds_type shaped rfl⟩
  | valueView read accepted => exact ⟨ctx, mem, Context.holds_value read accepted⟩
  | valueUpcast parent =>
    obtain ⟨home, mem', owner, r, stored, accepted⟩ := names
    exact ⟨home, mem', owner, r, stored, accepted.imp_left (ValueView.accepts_of_parent parent)⟩
  | valueType read =>
    obtain ⟨shape, shaped⟩ := (wf.valueSound read).type
    exact ⟨ctx, mem, Context.holds_type shaped rfl⟩
  | @integerType v r read =>
    have accepted := (sound.admits mem names).value read
    cases kind : r.kind with
    | int n =>
      have typed := (wf.valueSound read).kind
      rw [kind] at typed
      exact ⟨ctx, mem, Context.holds_type typed rfl⟩
    | _ => simp [kind, ValueView.accepts] at accepted
  | @content v r known h' read inside =>
    rcases holds_content wf read inside with held | ⟨i, kind, stored⟩
    · exact ⟨ctx, mem, held⟩
    · exact sound.references ctx mem ⟨v⟩ i (Context.instruction_eq_ok.mpr ⟨r, read, kind⟩) h' stored
  | calledType read called =>
    obtain ⟨found, signed, same⟩ := Checked.bind_eq_ok.mp called
    cases found with
    | none => cases same
    | some signature =>
      obtain rfl := Except.ok.inj same
      obtain ⟨_, _, _, shaped⟩ := Context.calleeSignature?_shape signed
      exact ⟨ctx, mem, Context.holds_type (Context.signature_eq_ok.mp shaped) rfl⟩
  | @blockContent b r h' read inside =>
    simp only [BlockRecord.handles, List.mem_append, List.mem_map, Option.mem_toList] at inside
    rcases inside with ⟨f, parent, rfl⟩ | ⟨i, listed, rfl⟩
    · obtain ⟨fr, known, _⟩ := wf.block_listed read parent
      exact ⟨ctx, mem, Context.holds_function known rfl⟩
    · obtain ⟨ir, made, _⟩ := wf.block_instruction read listed
      obtain ⟨record, held, kind⟩ := Context.instruction_eq_ok.mp made
      exact ⟨ctx, mem, Context.holds_value held (kind ▸ rfl)⟩
  | @moduleContent m r h' read inside =>
    simp only [ModuleRecord.handles, List.mem_append, List.mem_map] at inside
    rcases inside with (⟨g, listed, rfl⟩ | ⟨f, listed, rfl⟩) | named
    · obtain ⟨gr, known, _⟩ := wf.module_global read listed
      exact ⟨ctx, mem, Context.holds_global known rfl⟩
    · obtain ⟨fr, known, _⟩ := wf.module_function read listed
      exact ⟨ctx, mem, Context.holds_function known rfl⟩
    · exact ⟨ctx, mem, (wf.moduleSound read).names h' named⟩
  | findFunction found =>
    obtain ⟨fr, known⟩ := Context.function_of_find found
    exact ⟨ctx, mem, Context.holds_function known rfl⟩
  | findGlobal found =>
    obtain ⟨gr, known⟩ := Context.global_of_find found
    exact ⟨ctx, mem, Context.holds_global known rfl⟩

/-! ### The steps -/

theorem empty : ({} : World).Sound := ⟨by simp, by simp, by simp, by simp⟩

theorem withHandles (sound : w.Sound) {answers : List Handle} (named : ∀ h ∈ answers, w.Names h) :
    ({ w with handles := w.handles ++ answers } : World).Sound where
  ids := sound.ids
  wellFormed := sound.wellFormed
  handles h mem := (List.mem_append.mp mem).elim (sound.handles h) (named h)
  references := sound.references

theorem context (sound : w.Sound) :
    ({ w with contexts := w.contexts ++ [.new ⟨w.contexts.length + 1⟩] } : World).Sound where
  ids k ctx found := by
    rw [List.getElem?_append] at found
    split at found
    · exact sound.ids k ctx found
    · rename_i beyond
      cases place : k - w.contexts.length with
      | zero =>
        obtain rfl : Context.new ⟨w.contexts.length + 1⟩ = ctx := by simpa [place] using found
        have last : k = w.contexts.length := by omega
        rw [last]
        rfl
      | succ n => simp [place] at found
  wellFormed ctx mem := by
    rcases List.mem_append.mp mem with old | new
    · exact sound.wellFormed ctx old
    · rw [List.mem_singleton.mp new]
      exact Context.wellFormed_new _
  handles h mem := by
    obtain ⟨ctx, old, held⟩ := sound.handles h mem
    exact ⟨ctx, List.mem_append_left _ old, held⟩
  references ctx mem i r read h inside := by
    rcases List.mem_append.mp mem with old | new
    · obtain ⟨home, old', held⟩ := sound.references ctx old i r read h inside
      exact ⟨home, List.mem_append_left _ old', held⟩
    · rw [List.mem_singleton.mp new, Context.instruction_eq_ok] at read
      obtain ⟨_, held, _⟩ := read
      simp [Context.value_eq_ok, Context.new] at held

theorem request (sound : w.Sound) {k : Nat} {ctx ctx' : Context} {request : Request}
    {answers : List Handle} (found : w.contexts[k]? = some ctx)
    (known : ∀ h ∈ request.handles, h ∈ w.handles)
    (run : (request.run ctx).result = .ok (answers, ctx')) :
    ({ contexts := w.contexts.set k ctx', handles := w.handles ++ answers } : World).Sound := by
  have mem : ctx ∈ w.contexts := List.mem_of_getElem? found
  have inside : k < w.contexts.length := (List.getElem?_eq_some_iff.mp found).1
  obtain ⟨effect, wf', held⟩ :=
    Request.effect (sound.wellFormed ctx mem) (sound.admits_known mem known) run
  have new : ctx' ∈ w.contexts.set k ctx' := List.mem_set inside ctx'
  have names {h : Handle} (named : w.Names h) :
      ({ contexts := w.contexts.set k ctx', handles := w.handles ++ answers } : World).Names h := by
    obtain ⟨home, mem', owner, fits⟩ := named
    by_cases same : home = ctx
    · subst same
      exact ⟨ctx', new, owner.trans effect.id.symm, effect.fits fits⟩
    · obtain ⟨j, found'⟩ := List.mem_iff_getElem?.mp mem'
      have other : k ≠ j := by
        rintro rfl
        exact same (Option.some.inj (found'.symm.trans found))
      refine ⟨home, List.mem_iff_getElem?.mpr ⟨j, ?_⟩, owner, fits⟩
      rw [List.getElem?_set_ne other, found']
  refine ⟨?_, ?_, ?_, ?_⟩
  · intro j c at'
    change (w.contexts.set k ctx')[j]? = _ at at'
    rw [List.getElem?_set] at at'
    split at at'
    · rename_i same
      subst same
      obtain rfl : ctx' = c := by simpa [inside] using at'
      exact effect.id.trans (sound.ids k ctx found)
    · exact sound.ids j c at'
  · intro c stored
    rcases List.mem_or_eq_of_mem_set stored with old | rfl
    · exact sound.wellFormed c old
    · exact wf'
  · intro h stored
    rcases List.mem_append.mp stored with old | fresh
    · exact names (sound.handles h old)
    · exact ⟨ctx', new, held h fresh⟩
  · intro c stored i r' read h used
    rcases List.mem_or_eq_of_mem_set stored with old | rfl
    · exact names (sound.references c old i r' read h used)
    · rcases effect.references read with ⟨r, read', same⟩ | given
      · exact names (sound.references ctx mem i r read' h (same ▸ used))
      · exact names (sound.handles h (known h (given h used)))

theorem step (sound : w.Sound) (step : w.Step w') : w'.Sound := by
  cases step with
  | context => exact sound.context
  | request found known run => exact sound.request found known run
  | access found known yields =>
    refine sound.withHandles fun h mem => ?_
    obtain rfl := List.mem_singleton.mp mem
    exact sound.yields (List.mem_of_getElem? found) (sound.handles _ known) yields
  | @liveModule k ctx m found live =>
    refine sound.withHandles fun h mem => ?_
    obtain rfl := List.mem_singleton.mp mem
    exact ⟨ctx, List.mem_of_getElem? found, Context.holds_liveModule live⟩

end Sound

/-- The invariant of every run. -/
theorem Reachable.sound {w : World} (h : Reachable w) : w.Sound := by
  induction h with
  | empty => exact .empty
  | step _ step ih => exact ih.step step

/-- What new contexts have and every request that succeeds keeps, every context has. -/
theorem Reachable.invariant {P : Context → Prop} (new : ∀ id, P (.new id))
    (request : ∀ (ctx ctx' : Context) (request : Request) (answers : List Handle),
      ctx.WellFormed → (∀ h ∈ request.handles, ctx.Admits h) →
      (request.run ctx).result = .ok (answers, ctx') → P ctx → P ctx')
    {w : World} (reachable : w.Reachable) : ∀ ctx ∈ w.contexts, P ctx := by
  induction reachable with
  | empty => simp
  | @step w w' before step ih =>
    cases step with
    | context =>
      intro ctx mem
      rcases List.mem_append.mp mem with old | fresh
      · exact ih ctx old
      · rw [List.mem_singleton.mp fresh]
        exact new _
    | @request k ctx ctx' asked answers found known run =>
      intro c mem
      rcases List.mem_or_eq_of_mem_set mem with old | rfl
      · exact ih c old
      · have inside : ctx ∈ w.contexts := List.mem_of_getElem? found
        have sound := before.sound
        exact request ctx c asked answers (sound.wellFormed ctx inside)
          (sound.admits_known inside known) run (ih ctx inside)
    | access => exact ih
    | liveModule => exact ih

section Relates

variable {R : Context → Context → Prop}
  (request : ∀ {w : World} {ctx ctx' : Context} {request : Request} {answers : List Handle},
    w.Reachable → ctx ∈ w.contexts → (∀ h ∈ request.handles, h ∈ w.handles) →
      (request.run ctx).result = .ok (answers, ctx') → R ctx ctx')
  {w w' : World} (reachable : w.Reachable) {k : Nat} {ctx : Context}
include request reachable

theorem Step.relates [Std.Refl R] (step : w.Step w') (found : w.contexts[k]? = some ctx) :
    ∃ ctx', w'.contexts[k]? = some ctx' ∧ R ctx ctx' := by
  have inside : k < w.contexts.length := (List.getElem?_eq_some_iff.mp found).1
  cases step with
  | context => exact ⟨ctx, by rw [List.getElem?_append_left inside, found], refl_of R ctx⟩
  | @request j c c' asked answers found' known run =>
    by_cases same : j = k
    · subst same
      obtain rfl := Option.some.inj (found.symm.trans found')
      exact ⟨c', List.getElem?_set_self inside,
        request reachable (List.mem_of_getElem? found) known run⟩
    · exact ⟨ctx, by rw [List.getElem?_set_ne same, found], refl_of R ctx⟩
  | access => exact ⟨ctx, found, refl_of R ctx⟩
  | liveModule => exact ⟨ctx, found, refl_of R ctx⟩

/-- What every request that succeeds does to its context, any sequence of operations does. -/
theorem relates_of_steps [Std.Refl R] [IsTrans Context R]
    (steps : Relation.ReflTransGen Step w w') (found : w.contexts[k]? = some ctx) :
    w'.Reachable ∧ ∃ ctx', w'.contexts[k]? = some ctx' ∧ R ctx ctx' := by
  induction steps with
  | refl => exact ⟨reachable, ctx, found, refl_of R ctx⟩
  | tail _ step ih =>
    obtain ⟨reachable', mid, found', first⟩ := ih
    obtain ⟨last, found'', second⟩ := step.relates request reachable' found'
    exact ⟨reachable'.step step, last, found'', trans_of R first second⟩

end Relates

/-! ### Runs that can be computed -/

def upcasts : Handle → List Handle
  | .type _ t => [.type .any t]
  | .value view v => view.parents.map (.value · v)
  | _ => []

theorem yields_of_upcast {ctx : Context} {h h' : Handle} (upcast : h' ∈ upcasts h) :
    ctx.Yields h h' := by
  cases h with
  | type view t =>
    obtain rfl := List.mem_singleton.mp upcast
    exact .typeUpcast
  | value view v =>
    obtain ⟨parent, mem, rfl⟩ := List.mem_map.mp upcast
    exact .valueUpcast mem
  | block | module => cases upcast

/-- One operation of a script: a new context, a request on the context at a position, or an upcast. -/
inductive Action where
  | context
  | request (k : Nat) (request : Request)
  | upcast (h : Handle)

def perform (w : World) : Action → Option World
  | .context => some { w with contexts := w.contexts ++ [.new ⟨w.contexts.length + 1⟩] }
  | .request k request =>
    match w.contexts[k]? with
    | none => none
    | some ctx =>
      if ∀ h ∈ request.handles, h ∈ w.handles then
        match (request.run ctx).result with
        | .ok (answers, ctx') =>
          some { contexts := w.contexts.set k ctx', handles := w.handles ++ answers }
        | .error _ => none
      else none
  | .upcast h =>
    if w.contexts ≠ [] ∧ ∃ known ∈ w.handles, h ∈ upcasts known then
      some { w with handles := w.handles ++ [h] }
    else none

def performAll : List Action → World → Option World
  | [], w => some w
  | action :: rest, w =>
    match w.perform action with
    | some w' => performAll rest w'
    | none => none

theorem request_of_perform {w w' : World} {k : Nat} {request : Request}
    (h : w.perform (.request k request) = some w') : ∃ ctx answers ctx',
      w.contexts[k]? = some ctx ∧ (∀ h ∈ request.handles, h ∈ w.handles) ∧
        (request.run ctx).result = .ok (answers, ctx') ∧
          { contexts := w.contexts.set k ctx', handles := w.handles ++ answers } = w' := by
  simp only [perform] at h
  split at h
  · cases h
  · rename_i ctx found
    split at h
    · rename_i known
      split at h
      · rename_i answers ctx' run
        exact ⟨ctx, answers, ctx', found, known, run, Option.some.inj h⟩
      · cases h
    · cases h

theorem step_of_perform {w w' : World} {action : Action} (h : w.perform action = some w') :
    w.Step w' := by
  cases action with
  | context =>
    obtain rfl := Option.some.inj h
    exact .context
  | request k request =>
    obtain ⟨ctx, answers, ctx', found, known, run, rfl⟩ := request_of_perform h
    exact .request found known run
  | upcast h' =>
    simp only [perform] at h
    split at h
    · rename_i possible
      obtain ⟨nonempty, known, mem, upcast⟩ := possible
      obtain rfl := Option.some.inj h
      obtain ⟨ctx, rest, contexts⟩ := List.exists_cons_of_ne_nil nonempty
      have found : w.contexts[0]? = some ctx := by rw [contexts]; rfl
      exact .access found mem (yields_of_upcast upcast)
    · cases h

theorem steps_of_performAll {w w' : World} {actions : List Action}
    (h : performAll actions w = some w') : Relation.ReflTransGen Step w w' := by
  induction actions generalizing w with
  | nil =>
    obtain rfl := Option.some.inj h
    exact .refl
  | cons action rest ih =>
    simp only [performAll] at h
    split at h
    · rename_i mid done
      exact .head (step_of_perform done) (ih h)
    · cases h

theorem Reachable.steps {w w' : World} (before : Reachable w)
    (steps : Relation.ReflTransGen Step w w') : Reachable w' := by
  induction steps with
  | refl => exact before
  | tail _ step ih => exact ih.step step

/-- What a script leads to, when none of its operations fails. -/
def after (script : List Action) : World := (performAll script {}).getD {}

theorem reachable_after {script : List Action} (runs : (performAll script {}).isSome = true) :
    (after script).Reachable := by
  obtain ⟨w, done⟩ := Option.isSome_iff_exists.mp runs
  rw [after, done]
  exact Reachable.empty.steps (steps_of_performAll done)

end World
end ModuleIR
