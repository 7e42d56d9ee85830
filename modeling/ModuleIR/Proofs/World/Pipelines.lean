import ModuleIR.Proofs.Pipeline.Turns
import ModuleIR.Proofs.World.Forest

set_option autoImplicit false

/-!
# Pipelines over public operations

A pass changes a context by public operations, so that a module that it does not erase keeps its
functions. Hence every function that a pass has a turn on is still there when its turn comes, and a
pipeline returns when the calls that are due do.
-/
namespace ModuleIR

namespace Context

def Occurs (ctx : Context) : Prop := ∃ w : World, w.Reachable ∧ ctx ∈ w.contexts

/-- Public operations lead from the one context to the other. -/
def Evolves (ctx ctx' : Context) : Prop :=
  ∃ (w w' : World) (k : Nat), w.Reachable ∧ w.contexts[k]? = some ctx ∧
    Relation.ReflTransGen World.Step w w' ∧ w'.contexts[k]? = some ctx'

variable {ctx ctx' : Context}

theorem Occurs.wellFormed (occurs : ctx.Occurs) : ctx.WellFormed :=
  have ⟨_, reachable, mem⟩ := occurs
  reachable.sound.wellFormed ctx mem

theorem Occurs.evolves (occurs : ctx.Occurs) : ctx.Evolves ctx :=
  have ⟨w, reachable, mem⟩ := occurs
  have ⟨k, found⟩ := List.mem_iff_getElem?.mp mem
  ⟨w, w, k, reachable, found, .refl, found⟩

namespace Evolves

theorem occurs (evolves : ctx.Evolves ctx') : ctx'.Occurs :=
  have ⟨_, w', _, reachable, _, steps, found'⟩ := evolves
  ⟨w', reachable.steps steps, List.mem_of_getElem? found'⟩

theorem insertsOnly (evolves : ctx.Evolves ctx') : ctx.InsertsOnly ctx' := by
  obtain ⟨w, w', k, reachable, found, steps, found'⟩ := evolves
  obtain ⟨_, last, again, inserts⟩ := World.relates_of_steps
    (fun reachable mem _ run => Request.insertsOnly (reachable.sound.wellFormed _ mem) run)
    reachable steps found
  obtain rfl := Option.some.inj (again.symm.trans found')
  exact inserts

theorem functions (evolves : ctx.Evolves ctx') {m : ModuleRef} {r r' : ModuleRecord}
    (live : ctx.module m = .ok r) (live' : ctx'.module m = .ok r') :
    r.functions ⊆ r'.functions := by
  rcases evolves.insertsOnly.modules m r live with gone | ⟨again, read, _, functions⟩
  · exact (gone.not_lives ⟨r', live'⟩).elim
  · obtain rfl := Checked.unique read live'
    exact functions.subset

end Evolves
end Context

namespace Pipeline

variable {σ : Type}

/-- The call returns after public operations that leave the module, in a situation of the kind. -/
def Returns (kind : Situation σ → Prop) (m : ModuleRef) (call : StateT σ Build Bool) (s : σ)
    (ctx : Context) : Prop :=
  ∃ answer s' ctx' r, (call s ctx).result = .ok ((answer, s'), ctx') ∧ ctx.Evolves ctx' ∧
    ctx'.module m = .ok r ∧ kind (s', ctx')

end Pipeline

open Pipeline Context

/-- In a situation of the kind, each call of the pass that can be due returns. -/
def Pass.Serves {σ : Type} (kind : Situation σ → Prop) (m : ModuleRef) : Pass σ → Prop
  | onModule _ run => ∀ s ctx r, kind (s, ctx) → ctx.Occurs → ctx.module m = .ok r →
    Returns kind m (run m) s ctx
  | onFunction _ run => ∀ s ctx r f fr, kind (s, ctx) → ctx.Occurs → ctx.module m = .ok r →
    f ∈ r.functions → ctx.function f = .ok fr → fr.blocks ≠ [] → Returns kind m (run f) s ctx

variable {σ : Type} {kind : Situation σ → Prop} {m : ModuleRef} {s : σ} {ctx : Context}
  {r : ModuleRecord}

namespace Pass

theorem functions_take_turns {name : String} {run : FunctionRef → StateT σ Build Bool}
    {fs : List FunctionRef} (serves : (onFunction name run).Serves kind m) (fits : kind (s, ctx))
    (occurs : ctx.Occurs) (live : ctx.module m = .ok r) (listed : fs ⊆ r.functions) :
    ∃ turns s' ctx' r', turns.map (·.target) = fs.map .function ∧
      (∀ t ∈ turns, (onFunction name run).Takes t) ∧ Turn.Linked (s, ctx) turns (s', ctx') ∧
      ctx'.Occurs ∧ ctx'.module m = .ok r' ∧ kind (s', ctx') := by
  induction fs generalizing s ctx r with
  | nil => exact ⟨[], s, ctx, r, rfl, by simp, rfl, occurs, live, fits⟩
  | cons f rest ih =>
    obtain ⟨mem, listed⟩ := List.cons_subset.mp listed
    obtain ⟨fr, read, _⟩ := occurs.wellFormed.module_function live mem
    by_cases declared : fr.blocks = []
    · obtain ⟨turns, s', ctx', r', targets, takes, linked, last⟩ := ih fits occurs live listed
      refine ⟨⟨.function f, (s, ctx), none, (s, ctx)⟩ :: turns, s', ctx', r', by simp [targets], ?_,
        ⟨rfl, linked⟩, last⟩
      exact List.forall_mem_cons.mpr ⟨.skipped read declared, takes⟩
    · obtain ⟨answer, s₁, ctx₁, r₁, call, evolves, live₁, fits₁⟩ :=
        serves s ctx r f fr fits occurs live mem read declared
      have kept := evolves.functions live live₁
      obtain ⟨turns, s', ctx', r', targets, takes, linked, last⟩ :=
        ih fits₁ evolves.occurs live₁ (fun _ inside => kept (listed inside))
      refine ⟨⟨.function f, (s, ctx), some answer, (s₁, ctx₁)⟩ :: turns, s', ctx', r',
        by simp [targets], ?_, ⟨rfl, linked⟩, last⟩
      exact List.forall_mem_cons.mpr ⟨.onFunction read declared call, takes⟩

theorem visitEach_serves {label : String} {modified : Bool} {note : String → σ → σ}
    (closed : ∀ s ctx name, kind (s, ctx) → kind (note name s, ctx)) :
    (visitEach label modified note).Serves kind m := by
  intro s ctx r f fr fits occurs live _ read _
  obtain ⟨record, held, _⟩ := function_eq_ok.mp read
  refine ⟨modified, note (label ++ ":" ++ record.name.getD "") s, ctx, r, ?_, occurs.evolves, live,
    closed s ctx _ fits⟩
  refine Build.state_bind_eq_ok.mpr ⟨record.name.getD "", s, ctx, ?_, rfl⟩
  exact Build.state_lift_eq_ok.mpr
    ⟨Build.read_eq_ok.mpr ⟨functionName_eq_ok.mpr ⟨record, held, rfl⟩, rfl⟩, rfl⟩

/-- A pass that serves has its turns, no two of them on the same function. -/
theorem Serves.turns {pass : Pass σ} (serves : pass.Serves kind m) (fits : kind (s, ctx))
    (occurs : ctx.Occurs) (live : ctx.module m = .ok r) :
    ∃ turns s' ctx' r', pass.Turns m (s, ctx) turns (s', ctx') ∧
      (turns.map (·.target)).Nodup ∧ ctx'.Occurs ∧ ctx'.module m = .ok r' ∧ kind (s', ctx') := by
  cases pass with
  | onModule name run =>
    obtain ⟨answer, s', ctx', r', call, evolves, live', fits'⟩ := serves s ctx r fits occurs live
    exact ⟨[⟨.module m, (s, ctx), some answer, (s', ctx')⟩], s', ctx', r',
      turns_onModule.mpr ⟨_, rfl, .onModule call, rfl, rfl, rfl⟩, List.nodup_singleton _,
      evolves.occurs, live', fits'⟩
  | onFunction name run =>
    obtain ⟨turns, s', ctx', r', targets, takes, linked, last⟩ :=
      functions_take_turns serves fits occurs live (List.Subset.refl _)
    refine ⟨turns, s', ctx', r', ⟨?_, takes, linked⟩, ?_, last⟩
    · simp [Pass.targets, live, targets]
    · rw [targets]
      exact (occurs.wellFormed.moduleSound live).functionsNodup.map fun _ _ => Target.function.inj

end Pass

namespace Pipeline

variable {passes : List (Pass σ)}

/-- Passes that serve are run, and serve again afterwards. -/
theorem serving_runs (serves : ∀ pass ∈ passes, pass.Serves kind m) (fits : kind (s, ctx))
    (occurs : ctx.Occurs) (live : ctx.module m = .ok r) : ∃ turns s' ctx' r',
      Runs m passes (s, ctx) turns (s', ctx') ∧ (∀ each ∈ turns, (each.map (·.target)).Nodup) ∧
      ctx'.Occurs ∧ ctx'.module m = .ok r' ∧ kind (s', ctx') := by
  induction passes generalizing s ctx r with
  | nil => exact ⟨[], s, ctx, r, .nil, by simp, occurs, live, fits⟩
  | cons pass rest ih =>
    obtain ⟨own, others⟩ := List.forall_mem_cons.mp serves
    obtain ⟨turns, s₁, ctx₁, r₁, first, nodup, occurs₁, live₁, fits₁⟩ := own.turns fits occurs live
    obtain ⟨later, s', ctx', r', runs, nodups, last⟩ := ih others fits₁ occurs₁ live₁
    exact ⟨turns :: later, s', ctx', r', .cons live first runs,
      List.forall_mem_cons.mpr ⟨nodup, nodups⟩, last⟩

theorem runs_of_serves (serves : ∀ pass ∈ passes, pass.Serves kind m) (fits : kind (s, ctx))
    (occurs : ctx.Occurs) (live : ctx.module m = .ok r) : ∃ turns s' ctx',
      Runs m passes (s, ctx) turns (s', ctx') ∧ ∀ each ∈ turns, (each.map (·.target)).Nodup :=
  have ⟨turns, s', ctx', _, runs, nodups, _⟩ := serving_runs serves fits occurs live
  ⟨turns, s', ctx', runs, nodups⟩

theorem runTimes_of_serves (serves : ∀ pass ∈ passes, pass.Serves kind m) (fits : kind (s, ctx))
    (occurs : ctx.Occurs) (live : ctx.module m = .ok r) (times : Nat) : ∃ answers s' ctx',
      (runTimes m passes times s ctx).result = .ok ((answers, s'), ctx') := by
  induction times generalizing s ctx r with
  | zero => exact ⟨[], s, ctx, Build.state_pure_eq_ok.mpr ⟨rfl, rfl, rfl⟩⟩
  | succ times ih =>
    obtain ⟨turns, s₁, ctx₁, r₁, runs, -, occurs₁, live₁, fits₁⟩ :=
      serving_runs serves fits occurs live
    obtain ⟨answers, s', ctx', others⟩ := ih fits₁ occurs₁ live₁
    have first := run_eq_ok.mpr ⟨turns, runs, rfl⟩
    have last : ((return turns.flatten.any Turn.changed :: (← runTimes m passes times) :
        StateT σ Build (List Bool)) s₁ ctx₁).result =
          .ok ((turns.flatten.any Turn.changed :: answers, s'), ctx') :=
      Build.state_bind_eq_ok.mpr ⟨answers, s', ctx', others,
        Build.state_pure_eq_ok.mpr ⟨rfl, rfl, rfl⟩⟩
    exact ⟨_, s', ctx', Build.state_bind_eq_ok.mpr ⟨_, s₁, ctx₁, first, last⟩⟩

/-- A pipeline gives each pass its turns, one after another: a turn on each function that is in the
module when the pass starts, in which it is called unless the function has no body. The answer is
whether a call changed something. Two pipelines in one take the turns of the first, and then those
of the second. -/
theorem turn_by_turn {w : World} (reachable : w.Reachable) (mem : ctx ∈ w.contexts)
    (live : m ∈ ctx.liveModules) (serves : ∀ pass ∈ passes, pass.Serves kind m)
    (fits : kind (s, ctx)) : ∃ turns s' ctx',
      Runs m passes (s, ctx) turns (s', ctx') ∧
      (∀ turns' final, Runs m passes (s, ctx) turns' final → turns' = turns ∧ final = (s', ctx')) ∧
      (∀ each ∈ turns, (each.map (·.target)).Nodup) ∧
      (run m passes s ctx).result = .ok ((turns.flatten.any Turn.changed, s'), ctx') ∧
      (run m (passes.map .recorded) (s, []) ctx).result =
        .ok ((turns.flatten.any Turn.changed, s', turns.flatten.filter Turn.called), ctx') ∧
      ∀ first second, passes = first ++ second →
        run m passes = (do
          let modified ← run m first
          let modified' ← run m second
          return modified' || modified) ∧
        ∃ turns₁ turns₂ mid, turns = turns₁ ++ turns₂ ∧ Runs m first (s, ctx) turns₁ mid ∧
          Runs m second mid turns₂ (s', ctx') := by
  obtain ⟨r, live⟩ := mem_liveModules.mp live
  obtain ⟨turns, s', ctx', runs, nodup⟩ := runs_of_serves serves fits ⟨w, reachable, mem⟩ live
  refine ⟨turns, s', ctx', runs, fun _ _ runs' => runs'.unique runs, nodup,
    run_eq_ok.mpr ⟨turns, runs, rfl⟩, runs.log, ?_⟩
  rintro first second rfl
  exact ⟨run_append, runs_append.mp runs⟩

def declared : World := .after [.context, .request 0 .voidType,
  .request 0 (.functionType ⟨⟨1⟩, 0⟩ [] false), .request 0 (.createModule "m"),
  .request 0 (.createFunction ⟨⟨⟨1⟩, 1⟩⟩ .external "f" ⟨⟨1⟩, 0⟩),
  .request 0 (.createFunction ⟨⟨⟨1⟩, 1⟩⟩ .external "g" ⟨⟨1⟩, 0⟩),
  .request 0 (.createBlock "" (some ⟨⟨⟨1⟩, 0⟩⟩) none)]

def defining : List World.Action := [.request 0 (.createBlock "" (some ⟨⟨⟨1⟩, 1⟩⟩) none),
  .request 0 (.createFunction ⟨⟨⟨1⟩, 1⟩⟩ .external "h" ⟨⟨1⟩, 0⟩),
  .request 0 (.createBlock "" (some ⟨⟨⟨1⟩, 2⟩⟩) none)]

def defined : World := (declared.performAll defining).getD {}

/-- Gives the second function a body if it has none, and then makes a third function. -/
def define (f : FunctionRef) : StateT Unit Build Bool := do
  let record ← (Build.read (·.function f) : StateT Unit Build FunctionRecord)
  match ← (Build.read (·.findFunction? record.module "g") : StateT Unit Build _) with
  | none => return false
  | some g =>
    if (← (Build.read (·.function g) : StateT Unit Build FunctionRecord)).blocks.isEmpty then
      let _ ← (Build.createBlock "" (some g) none : StateT Unit Build BlockRef)
      let h ← (Build.createFunction record.signature .external "h" record.module :
        StateT Unit Build FunctionRef)
      let _ ← (Build.createBlock "" (some h) none : StateT Unit Build BlockRef)
      return true
    else return false

def stages : List Context := [declared, defined].filterMap (·.contexts[0]?)

theorem declared_reachable : declared.Reachable := World.reachable_after (by decide +kernel)

theorem stages_evolve (mem : ctx ∈ stages) {last : Context}
    (found : defined.contexts[0]? = some last) : ctx.Evolves last := by
  have steps : Relation.ReflTransGen World.Step declared defined := by
    obtain ⟨w, done⟩ := Option.isSome_iff_exists.mp
      (show (declared.performAll defining).isSome = true by decide +kernel)
    rw [defined, done]
    exact World.steps_of_performAll done
  obtain ⟨w, stage, start⟩ := List.mem_filterMap.mp mem
  rcases List.mem_pair.mp stage with first | last
  · exact ⟨declared, defined, 0, declared_reachable, first ▸ start, steps, found⟩
  · exact ⟨defined, defined, 0, declared_reachable.steps steps, last ▸ start, .refl, found⟩

theorem define_serves :
    (Pass.onFunction "define" define).Serves (·.2 ∈ stages) ⟨⟨1⟩, 0⟩ := by
  intro s ctx r f fr fits occurs live mem read body
  have computed : stages.all (fun ctx => (ctx.module ⟨⟨1⟩, 0⟩).toOption.all fun r =>
      r.functions.all fun f => (ctx.function f).toOption.all fun fr => fr.blocks = [] ∨
        (define f () ctx).result.toOption.any fun out => some out.2 = defined.contexts[0]? ∧
          out.2 ∈ stages ∧ (out.2.module ⟨⟨1⟩, 0⟩).toOption.isSome) = true := by decide +kernel
  have computed := (Option.all_eq_true _ _).mp (List.all_eq_true.mp computed ctx fits) r
    (Checked.toOption_eq_some.mpr live)
  have computed := (Option.all_eq_true _ _).mp (List.all_eq_true.mp computed f mem) fr
    (Checked.toOption_eq_some.mpr read)
  obtain ⟨⟨⟨answer, s'⟩, last⟩, call, landed⟩ := (Option.any_eq_true _ _).mp
    ((of_decide_eq_true computed).resolve_left body)
  obtain ⟨found, stage, live'⟩ := of_decide_eq_true landed
  obtain ⟨r', live'⟩ := Option.isSome_iff_exists.mp live'
  exact ⟨answer, s', last, r', Checked.toOption_eq_some.mp call, stages_evolve fits found.symm,
    Checked.toOption_eq_some.mp live', stage⟩

/-- A pass that defines, and one that looks at each function with a body. -/
def definePasses : List (Pass Unit) :=
  [.onFunction "define" define, .visitEach "seen" false fun _ s => s]

/-- The second function is called, as it has a body when its turn comes, and the third is left to
the next pass. -/
def defineCalls : List (Target × Option Bool) :=
  [(.function ⟨⟨⟨1⟩, 0⟩⟩, some true), (.function ⟨⟨⟨1⟩, 1⟩⟩, some false),
    (.function ⟨⟨⟨1⟩, 0⟩⟩, some false), (.function ⟨⟨⟨1⟩, 1⟩⟩, some false),
    (.function ⟨⟨⟨1⟩, 2⟩⟩, some false)]

theorem defines_turn_by_turn : ∃ ctx ∈ declared.contexts, ∃ turns s' ctx',
    Runs ⟨⟨1⟩, 0⟩ definePasses ((), ctx) turns (s', ctx') ∧
    (turns.flatten.filter Turn.called).map (fun t => (t.target, t.answer)) = defineCalls := by
  have computed : (declared.contexts[0]?).any (fun ctx : Context => ctx ∈ stages ∧
      (⟨⟨1⟩, 0⟩ : ModuleRef) ∈ ctx.liveModules ∧
      (run ⟨⟨1⟩, 0⟩ (definePasses.map .recorded) ((), []) ctx).result.toOption.any fun out =>
        out.1.2.2.map (fun t => (t.target, t.answer)) = defineCalls) = true := by decide +kernel
  obtain ⟨ctx, found, computed⟩ := (Option.any_eq_true _ _).mp computed
  obtain ⟨stage, live, computed⟩ := of_decide_eq_true computed
  obtain ⟨out, ran, calls⟩ := (Option.any_eq_true _ _).mp computed
  have mem : ctx ∈ declared.contexts := List.mem_of_getElem? found
  have serves : ∀ pass ∈ definePasses, Pass.Serves (·.2 ∈ stages) ⟨⟨1⟩, 0⟩ pass :=
    List.forall_mem_cons.mpr ⟨define_serves, List.forall_mem_singleton.mpr
      (Pass.visitEach_serves fun _ _ _ stage => stage)⟩
  obtain ⟨turns, s', ctx', runs, _, _, _, log, _⟩ :=
    turn_by_turn (s := ()) declared_reachable mem live serves stage
  rw [Checked.toOption_eq_some.mp ran] at log
  obtain rfl := Except.ok.inj log
  exact ⟨ctx, mem, turns, s', ctx', runs, of_decide_eq_true calls⟩

end Pipeline
end ModuleIR
