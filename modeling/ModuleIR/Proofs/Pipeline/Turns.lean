import ModuleIR.Pipeline.Pass
import ModuleIR.Proofs.Steps.Results

set_option autoImplicit false

/-!
# Pipelines turn by turn

A pass has one turn on the module, or one on each function that is in the module when the pass
starts. A function that has no body when its turn comes is skipped; in any other turn the pass is
called once, in the situation that the turn before has left. A run of a pipeline that returns is a
sequence of such turns, pass by pass, and says whether some call answered that it changed something.
-/
namespace ModuleIR

namespace Build

instance : LawfulMonad Build := .mk' Build
  (fun step => funext fun ctx => by
    change andThen step answer ctx = step ctx
    unfold andThen answer
    generalize step ctx = outcome
    obtain ⟨events, result⟩ := outcome
    cases result <;> simp)
  (fun a next => funext fun ctx => by
    change andThen (answer a) next ctx = next a ctx
    simp [andThen, answer])
  (fun step next last => funext fun ctx => by
    change andThen (andThen step next) last ctx = andThen step (fun a => andThen (next a) last) ctx
    simp only [andThen]
    cases run : (step ctx).result with
    | error violation => rfl
    | ok answer =>
      simp only
      cases run' : (next answer.1 answer.2).result <;> simp [List.append_assoc])

variable {σ α β : Type} {s s' : σ} {ctx ctx' : Context}

/-! ### Steps that have a state beside the context -/

theorem state_pure_eq_ok {a b : α} :
    ((pure a : StateT σ Build α) s ctx).result = .ok ((b, s'), ctx') ↔
      a = b ∧ s = s' ∧ ctx = ctx' := by
  rw [show (pure a : StateT σ Build α) s = pure (a, s) from rfl, pure_eq_ok, Prod.mk.injEq,
    and_assoc]

theorem state_lift_eq_ok {step : Build α} {a : α} :
    ((step : StateT σ Build α) s ctx).result = .ok ((a, s'), ctx') ↔
      (step ctx).result = .ok (a, ctx') ∧ s = s' := by
  rw [show (step : StateT σ Build α) s = (step >>= fun a => pure (a, s)) from rfl]
  simp only [bind_eq_ok, pure_eq_ok, Prod.mk.injEq]
  constructor
  · rintro ⟨a, mid, run, ⟨rfl, rfl⟩, rfl⟩
    exact ⟨run, rfl⟩
  · rintro ⟨run, rfl⟩
    exact ⟨a, ctx', run, ⟨rfl, rfl⟩, rfl⟩

theorem state_bind_eq_ok {step : StateT σ Build α} {next : α → StateT σ Build β} {b : β} :
    ((step >>= next) s ctx).result = .ok ((b, s'), ctx') ↔
      ∃ a between mid, (step s ctx).result = .ok ((a, between), mid) ∧
        (next a between mid).result = .ok ((b, s'), ctx') := by
  rw [show (step >>= next) s = (step s >>= fun p => next p.1 p.2) from rfl, bind_eq_ok]
  constructor
  · rintro ⟨⟨a, between⟩, mid, first, last⟩
    exact ⟨a, between, mid, first, last⟩
  · rintro ⟨a, between, mid, first, last⟩
    exact ⟨(a, between), mid, first, last⟩

end Build

open Build Context

inductive Target where
  | module (m : ModuleRef)
  | function (f : FunctionRef)
  deriving DecidableEq, Repr

/-- The state that the passes share, and the context. -/
abbrev Situation (σ : Type) : Type := σ × Context

/-- A turn of a pass, with what the pass answered if it was called. -/
structure Turn (σ : Type) where
  target : Target
  before : Situation σ
  answer : Option Bool
  after : Situation σ

namespace Turn

variable {σ : Type}

def called (t : Turn σ) : Bool := t.answer.isSome

def changed (t : Turn σ) : Bool := t.answer = some true

def Linked : Situation σ → List (Turn σ) → Situation σ → Prop
  | start, [], final => start = final
  | start, t :: rest, final => t.before = start ∧ Linked t.after rest final

end Turn

namespace Pass

variable {σ : Type}

/-- What happens in a turn. -/
inductive Takes : Pass σ → Turn σ → Prop
  | onModule {name : String} {run : ModuleRef → StateT σ Build Bool} {m : ModuleRef} {answer : Bool}
      {before after : Situation σ}
      (called : (run m before.1 before.2).result = .ok ((answer, after.1), after.2)) :
      Takes (.onModule name run) ⟨.module m, before, some answer, after⟩
  | onFunction {name : String} {run : FunctionRef → StateT σ Build Bool} {f : FunctionRef}
      {r : FunctionRecord} {answer : Bool} {before after : Situation σ}
      (read : before.2.function f = .ok r) (body : r.blocks ≠ [])
      (called : (run f before.1 before.2).result = .ok ((answer, after.1), after.2)) :
      Takes (.onFunction name run) ⟨.function f, before, some answer, after⟩
  | skipped {name : String} {run : FunctionRef → StateT σ Build Bool} {f : FunctionRef}
      {r : FunctionRecord} {here : Situation σ}
      (read : here.2.function f = .ok r) (declared : r.blocks = []) :
      Takes (.onFunction name run) ⟨.function f, here, none, here⟩

def targets (m : ModuleRef) (ctx : Context) : Pass σ → Checked (List Target)
  | onModule _ _ => .ok [.module m]
  | onFunction _ _ => return (← ctx.module m).functions.map .function

/-- The turns of a pass from its start to its end. -/
structure Turns (m : ModuleRef) (pass : Pass σ) (start : Situation σ) (turns : List (Turn σ))
    (final : Situation σ) : Prop where
  targets : pass.targets m start.2 = .ok (turns.map (·.target))
  takes : ∀ t ∈ turns, pass.Takes t
  linked : Turn.Linked start turns final

end Pass

namespace Pipeline

variable {σ : Type}

/-- The turns of all passes of a pipeline, pass by pass. -/
inductive Runs (m : ModuleRef) :
    List (Pass σ) → Situation σ → List (List (Turn σ)) → Situation σ → Prop
  | nil {here : Situation σ} : Runs m [] here [] here
  | cons {pass : Pass σ} {rest : List (Pass σ)} {start mid final : Situation σ}
      {turns : List (Turn σ)} {later : List (List (Turn σ))} {r : ModuleRecord}
      (live : start.2.module m = .ok r) (first : pass.Turns m start turns mid)
      (others : Runs m rest mid later final) : Runs m (pass :: rest) start (turns :: later) final

end Pipeline

/-! ### A run that returns is a sequence of turns -/

namespace Pass

variable {σ : Type} {m : ModuleRef} {pass : Pass σ} {s s' : σ} {ctx ctx' : Context}
  {modified : Bool}

theorem runOnFunctions_cons (name : String) {run : FunctionRef → StateT σ Build Bool}
    {f : FunctionRef} {rest : List FunctionRef} :
    (runOnFunctions run (f :: rest) s ctx).result = .ok ((modified, s'), ctx') ↔
      ∃ (t : Turn σ) (modified' : Bool), (onFunction name run).Takes t ∧ t.target = .function f ∧
        t.before = (s, ctx) ∧ (t.changed || modified') = modified ∧
        (runOnFunctions run rest t.after.1 t.after.2).result = .ok ((modified', s'), ctx') := by
  simp only [runOnFunctions, state_bind_eq_ok, state_lift_eq_ok, read_eq_ok]
  constructor
  · rintro ⟨r, s, ctx, ⟨⟨read, rfl⟩, rfl⟩, turn⟩
    split at turn
    · rename_i declared
      exact ⟨⟨.function f, _, none, _⟩, modified, .skipped read (List.isEmpty_iff.mp declared), rfl,
        rfl, by simp [Turn.changed], turn⟩
    · rename_i body
      simp only [state_bind_eq_ok, state_pure_eq_ok] at turn
      obtain ⟨answer, s, ctx, call, modified', _, _, others, rfl, rfl, rfl⟩ := turn
      exact ⟨⟨.function f, _, some answer, (s, ctx)⟩, modified',
        .onFunction read (mt List.isEmpty_iff.mpr body) call, rfl, rfl,
        by simp [Turn.changed, Bool.or_comm], others⟩
  · rintro ⟨_, modified', first, target, here, rfl, others⟩
    cases first with
    | skipped read declared =>
      obtain rfl := Target.function.inj target
      obtain rfl : _ = _ := here
      refine ⟨_, _, _, ⟨⟨read, rfl⟩, rfl⟩, ?_⟩
      simpa [declared, Turn.changed] using others
    | @onFunction _ _ _ _ answer _ _ read body call =>
      obtain rfl := Target.function.inj target
      obtain rfl : _ = _ := here
      refine ⟨_, _, _, ⟨⟨read, rfl⟩, rfl⟩, ?_⟩
      rw [if_neg (mt List.isEmpty_iff.mp body)]
      simp only [state_bind_eq_ok, state_pure_eq_ok]
      refine ⟨answer, _, _, call, modified', _, _, others, ?_, rfl, rfl⟩
      simp [Turn.changed, Bool.or_comm]

theorem runOnFunctions_eq_ok (name : String) {run : FunctionRef → StateT σ Build Bool}
    {fs : List FunctionRef} :
    (runOnFunctions run fs s ctx).result = .ok ((modified, s'), ctx') ↔
      ∃ turns : List (Turn σ), turns.map (·.target) = fs.map .function ∧
        (∀ t ∈ turns, (onFunction name run).Takes t) ∧ Turn.Linked (s, ctx) turns (s', ctx') ∧
        turns.any Turn.changed = modified := by
  induction fs generalizing s ctx modified with
  | nil =>
    simp only [runOnFunctions, state_pure_eq_ok, List.map_nil, List.map_eq_nil_iff]
    constructor
    · rintro ⟨rfl, rfl, rfl⟩
      exact ⟨[], rfl, by simp, rfl, rfl⟩
    · rintro ⟨_, rfl, -, same, rfl⟩
      obtain ⟨rfl, rfl⟩ := Prod.mk.inj same
      exact ⟨rfl, rfl, rfl⟩
  | cons f rest ih =>
    rw [runOnFunctions_cons name]
    constructor
    · rintro ⟨t, _, first, target, here, rfl, others⟩
      obtain ⟨turns, targets, takes, linked, rfl⟩ := ih.mp others
      exact ⟨t :: turns, by simp [target, targets], List.forall_mem_cons.mpr ⟨first, takes⟩,
        ⟨here, linked⟩, rfl⟩
    · rintro ⟨turns, targets, takes, linked, rfl⟩
      obtain ⟨t, later, rfl, target, others⟩ := List.map_eq_cons_iff.mp targets
      obtain ⟨first, takes'⟩ := List.forall_mem_cons.mp takes
      exact ⟨t, _, first, target, linked.1, rfl, ih.mpr ⟨later, others, takes', linked.2, rfl⟩⟩

theorem turns_onModule {name : String} {run : ModuleRef → StateT σ Build Bool}
    {turns : List (Turn σ)} {start final : Situation σ} : (onModule name run).Turns m start turns final ↔
      ∃ t, turns = [t] ∧ (onModule name run).Takes t ∧ t.target = .module m ∧ t.before = start ∧
        t.after = final := by
  constructor
  · rintro ⟨targets, takes, linked⟩
    obtain ⟨t, rest, rfl, target, none⟩ := List.map_eq_cons_iff.mp (Except.ok.inj targets).symm
    obtain rfl := List.map_eq_nil_iff.mp none
    exact ⟨t, rfl, takes t (by simp), target, linked⟩
  · rintro ⟨t, rfl, taken, target, rfl, rfl⟩
    refine ⟨by simp [Pass.targets, target], fun t' mem => ?_, rfl, rfl⟩
    exact List.mem_singleton.mp mem ▸ taken

theorem run_eq_ok :
    (pass.run m s ctx).result = .ok ((modified, s'), ctx') ↔
      ∃ turns, pass.Turns m (s, ctx) turns (s', ctx') ∧ turns.any Turn.changed = modified := by
  cases pass with
  | onModule name run =>
    simp only [turns_onModule]
    constructor
    · intro call
      exact ⟨_, ⟨⟨.module m, (s, ctx), some modified, (s', ctx')⟩, rfl, .onModule call, rfl, rfl, rfl⟩,
        by simp [Turn.changed]⟩
    · rintro ⟨_, ⟨t, rfl, taken, target, here, there⟩, rfl⟩
      cases taken with
      | onModule call =>
        obtain rfl := Target.module.inj target
        obtain rfl : _ = _ := here
        obtain rfl : _ = _ := there
        simpa [Turn.changed, Pass.run] using call
  | onFunction name run =>
    simp only [Pass.run, state_bind_eq_ok, state_lift_eq_ok, read_eq_ok]
    constructor
    · rintro ⟨r, _, _, ⟨⟨read, rfl⟩, rfl⟩, functions⟩
      obtain ⟨turns, targets, takes, linked, changed⟩ := (runOnFunctions_eq_ok name).mp functions
      refine ⟨turns, ⟨?_, takes, linked⟩, changed⟩
      simp [Pass.targets, read, targets]
    · rintro ⟨turns, ⟨targets, takes, linked⟩, changed⟩
      obtain ⟨r, read, same⟩ := Checked.bind_eq_ok.mp targets
      refine ⟨r, _, _, ⟨⟨read, rfl⟩, rfl⟩, ?_⟩
      exact (runOnFunctions_eq_ok name).mpr
        ⟨turns, (Except.ok.inj same).symm, takes, linked, changed⟩

variable {start final : Situation σ}

theorem answered_once {out : Checked ((Bool × σ) × Context)} {answer answer' : Bool}
    {after after' : Situation σ} (h : out = .ok ((answer, after.1), after.2))
    (h' : out = .ok ((answer', after'.1), after'.2)) : answer = answer' ∧ after = after' := by
  have same := h.symm.trans h'
  simp only [Except.ok.injEq, Prod.mk.injEq] at same
  obtain ⟨⟨rfl, state⟩, context⟩ := same
  exact ⟨rfl, Prod.ext state context⟩

theorem Takes.unique {t t' : Turn σ} (takes : pass.Takes t) (takes' : pass.Takes t')
    (target : t.target = t'.target) (before : t.before = t'.before) : t = t' := by
  obtain ⟨_, _, _, _⟩ := t
  obtain ⟨_, _, _, _⟩ := t'
  obtain rfl : _ = _ := target
  obtain rfl : _ = _ := before
  cases takes with
  | onModule call =>
    cases takes' with
    | onModule call' =>
      obtain ⟨rfl, rfl⟩ := answered_once call call'
      rfl
  | onFunction read body call =>
    cases takes' with
    | onFunction _ _ call' =>
      obtain ⟨rfl, rfl⟩ := answered_once call call'
      rfl
    | skipped read' declared => exact absurd (Checked.unique read read' ▸ declared) body
  | skipped read declared =>
    cases takes' with
    | onFunction read' body => exact absurd (Checked.unique read read' ▸ declared) body
    | skipped => rfl

theorem Turns.unique {turns turns' : List (Turn σ)} {final' : Situation σ}
    (h : pass.Turns m start turns final) (h' : pass.Turns m start turns' final') :
    turns = turns' ∧ final = final' := by
  have targets : turns.map (·.target) = turns'.map (·.target) := Checked.unique h.targets h'.targets
  obtain ⟨-, takes, linked⟩ := h
  obtain ⟨-, takes', linked'⟩ := h'
  induction turns generalizing start turns' with
  | nil =>
    obtain rfl := List.map_eq_nil_iff.mp targets.symm
    exact ⟨rfl, linked.symm.trans linked'⟩
  | cons t rest ih =>
    obtain ⟨t', rest', rfl, target, others⟩ := List.map_eq_cons_iff.mp targets.symm
    obtain ⟨first, later⟩ := List.forall_mem_cons.mp takes
    obtain ⟨first', later'⟩ := List.forall_mem_cons.mp takes'
    obtain rfl := first.unique first' target.symm (linked.1.trans linked'.1.symm)
    obtain ⟨rfl, rfl⟩ := ih others.symm later linked.2 later' linked'.2
    exact ⟨rfl, rfl⟩

end Pass

namespace Pipeline

variable {σ : Type} {m : ModuleRef} {passes : List (Pass σ)}

theorem run_eq_ok {s s' : σ} {ctx ctx' : Context} {modified : Bool} :
    (run m passes s ctx).result = .ok ((modified, s'), ctx') ↔ ∃ turns,
      Runs m passes (s, ctx) turns (s', ctx') ∧ turns.flatten.any Turn.changed = modified := by
  induction passes generalizing s ctx modified with
  | nil =>
    simp only [run, state_pure_eq_ok]
    constructor
    · rintro ⟨rfl, rfl, rfl⟩
      exact ⟨[], .nil, rfl⟩
    · rintro ⟨_, ⟨⟩, rfl⟩
      exact ⟨rfl, rfl, rfl⟩
  | cons pass rest ih =>
    simp only [run, state_bind_eq_ok, state_lift_eq_ok, read_eq_ok, emit_eq_ok, state_pure_eq_ok]
    constructor
    · rintro ⟨name, _, _, ⟨⟨named, rfl⟩, rfl⟩, _, _, _, ⟨rfl, rfl⟩, _, _, _, own, _, _, _,
        ⟨rfl, rfl⟩, _, _, _, others, rfl, rfl, rfl⟩
      obtain ⟨r, live, -⟩ := moduleName_eq_ok.mp named
      obtain ⟨turns, first, rfl⟩ := Pass.run_eq_ok.mp own
      obtain ⟨later, runs, rfl⟩ := ih.mp others
      refine ⟨turns :: later, .cons live first runs, ?_⟩
      simp [Bool.or_comm]
    · rintro ⟨_, _ | ⟨live, first, others⟩, rfl⟩
      have named := moduleName_eq_ok.mpr ⟨_, live, rfl⟩
      have own := Pass.run_eq_ok.mpr ⟨_, first, rfl⟩
      have runs := ih.mpr ⟨_, others, rfl⟩
      refine ⟨_, _, _, ⟨⟨named, rfl⟩, rfl⟩, (), _, _, ⟨rfl, rfl⟩, _, _, _, own, (), _, _,
        ⟨rfl, rfl⟩, _, _, _, runs, ?_, rfl, rfl⟩
      simp [Bool.or_comm]

variable {first second : List (Pass σ)} {start final : Situation σ} {turns : List (List (Turn σ))}

theorem Runs.unique {turns' : List (List (Turn σ))} {final' : Situation σ}
    (runs : Runs m passes start turns final) (runs' : Runs m passes start turns' final') :
    turns = turns' ∧ final = final' := by
  induction runs generalizing turns' with
  | nil =>
    cases runs'
    exact ⟨rfl, rfl⟩
  | cons _ first _ ih =>
    cases runs' with
    | cons _ first' others' =>
      obtain ⟨rfl, rfl⟩ := first.unique first'
      obtain ⟨rfl, rfl⟩ := ih others'
      exact ⟨rfl, rfl⟩

/-- The turns of two pipelines in one are those of the first, and then those of the second. -/
theorem runs_append : Runs m (first ++ second) start turns final ↔
    ∃ turns₁ turns₂ mid, turns = turns₁ ++ turns₂ ∧ Runs m first start turns₁ mid ∧
      Runs m second mid turns₂ final := by
  induction first generalizing start turns with
  | nil =>
    constructor
    · exact fun runs => ⟨[], turns, start, rfl, .nil, runs⟩
    · rintro ⟨_, _, _, rfl, ⟨⟩, runs⟩
      exact runs
  | cons pass rest ih =>
    constructor
    · rintro (_ | ⟨live, own, others⟩)
      obtain ⟨turns₁, turns₂, mid, rfl, front, back⟩ := ih.mp others
      exact ⟨_ :: turns₁, turns₂, mid, rfl, .cons live own front, back⟩
    · rintro ⟨_, turns₂, mid, rfl, _ | ⟨live, own, front⟩, back⟩
      exact .cons live own (ih.mpr ⟨_, turns₂, mid, rfl, front, back⟩)

/-- Two pipelines in one are the first run, and then the second, also in what they report. -/
theorem run_append : run m (first ++ second) = (do
    let modified ← run m first
    let modified' ← run m second
    return modified' || modified) := by
  induction first with
  | nil => simp [run]
  | cons pass rest ih => simp [run, ih, Bool.or_assoc]

end Pipeline

/-! ### Passes that keep a record of their calls -/

namespace Pass

variable {σ : Type} {m : ModuleRef} {pass : Pass σ} {start final : Situation σ}

def recordCall (target : Target) (call : StateT σ Build Bool) :
    StateT (σ × List (Turn σ)) Build Bool := fun (s, log) => do
  let before ← Build.read .ok
  let (answer, s') ← call s
  let after ← Build.read .ok
  return (answer, s', log ++ [⟨target, (s, before), some answer, (s', after)⟩])

/-- The same pass, with a log of its calls beside its state. -/
def recorded : Pass σ → Pass (σ × List (Turn σ))
  | onModule name run => onModule name fun m => recordCall (.module m) (run m)
  | onFunction name run => onFunction name fun f => recordCall (.function f) (run f)

theorem recordCall_eq_ok {target : Target} {call : StateT σ Build Bool} {s s' : σ}
    {log log' : List (Turn σ)} {ctx ctx' : Context} {answer : Bool} :
    (recordCall target call (s, log) ctx).result = .ok ((answer, s', log'), ctx') ↔
      (call s ctx).result = .ok ((answer, s'), ctx') ∧
        log ++ [⟨target, (s, ctx), some answer, (s', ctx')⟩] = log' := by
  simp only [recordCall, bind_eq_ok, read_eq_ok, pure_eq_ok, Prod.mk.injEq]
  constructor
  · rintro ⟨_, _, ⟨same, rfl⟩, ⟨_, _⟩, _, run, _, _, ⟨same', rfl⟩, ⟨rfl, rfl, rfl⟩, rfl⟩
    obtain rfl := Except.ok.inj same
    obtain rfl := Except.ok.inj same'
    exact ⟨run, rfl⟩
  · rintro ⟨run, rfl⟩
    exact ⟨ctx, ctx, ⟨rfl, rfl⟩, (answer, s'), ctx', run, ctx', ctx', ⟨rfl, rfl⟩,
      ⟨rfl, rfl, rfl⟩, rfl⟩

/-- The recorded pass takes the turns of the pass, and the log grows by those with a call. -/
theorem Takes.recorded {t : Turn σ} (takes : pass.Takes t) (log : List (Turn σ)) :
    pass.recorded.Takes ⟨t.target, ((t.before.1, log), t.before.2), t.answer,
      ((t.after.1, log ++ [t].filter Turn.called), t.after.2)⟩ := by
  cases takes with
  | onModule call => exact .onModule (recordCall_eq_ok.mpr ⟨call, rfl⟩)
  | onFunction read body call => exact .onFunction read body (recordCall_eq_ok.mpr ⟨call, rfl⟩)
  | skipped read declared =>
    simp only [Turn.called, Option.isSome_none, Bool.false_eq_true, not_false_eq_true,
      List.filter_cons_of_neg, List.filter_nil, List.append_nil]
    exact .skipped read declared

theorem linked_recorded {turns : List (Turn σ)} (takes : ∀ t ∈ turns, pass.Takes t)
    (linked : Turn.Linked start turns final) (log : List (Turn σ)) :
    ∃ turns', turns'.map (·.target) = turns.map (·.target) ∧
      (∀ t ∈ turns', pass.recorded.Takes t) ∧
      Turn.Linked ((start.1, log), start.2) turns'
        ((final.1, log ++ turns.filter Turn.called), final.2) ∧
      turns'.any Turn.changed = turns.any Turn.changed := by
  induction turns generalizing start log with
  | nil =>
    obtain rfl : start = final := linked
    exact ⟨[], rfl, by simp, by simp [Turn.Linked], rfl⟩
  | cons t rest ih =>
    obtain ⟨first, later⟩ := List.forall_mem_cons.mp takes
    obtain ⟨rfl, linked⟩ := linked
    obtain ⟨turns', same, takes', linked', changed⟩ :=
      ih later linked (log ++ [t].filter Turn.called)
    refine ⟨_ :: turns', ?_, List.forall_mem_cons.mpr ⟨first.recorded log, takes'⟩, ⟨rfl, ?_⟩, ?_⟩
    · simp [same]
    · rw [List.append_assoc, ← List.filter_append] at linked'
      exact linked'
    · simp only [List.any_cons, changed]
      rfl

theorem Turns.recorded {turns : List (Turn σ)} (h : pass.Turns m start turns final)
    (log : List (Turn σ)) :
    ∃ turns', pass.recorded.Turns m ((start.1, log), start.2) turns'
        ((final.1, log ++ turns.filter Turn.called), final.2) ∧
      turns'.any Turn.changed = turns.any Turn.changed := by
  obtain ⟨turns', same, takes, linked, changed⟩ := linked_recorded h.takes h.linked log
  refine ⟨turns', ⟨?_, takes, linked⟩, changed⟩
  rw [same, ← h.targets]
  cases pass <;> rfl

end Pass

namespace Pipeline

variable {σ : Type} {m : ModuleRef} {passes : List (Pass σ)} {start final : Situation σ}
  {turns : List (List (Turn σ))}

theorem Runs.recorded (runs : Runs m passes start turns final) (log : List (Turn σ)) :
    ∃ turns', Runs m (passes.map .recorded) ((start.1, log), start.2) turns'
        ((final.1, log ++ turns.flatten.filter Turn.called), final.2) ∧
      turns'.flatten.any Turn.changed = turns.flatten.any Turn.changed := by
  induction runs generalizing log with
  | nil => exact ⟨[], by simpa using .nil, rfl⟩
  | @cons _ _ _ _ _ turns _ _ live first _ ih =>
    obtain ⟨turns₁, first', changed⟩ := first.recorded log
    obtain ⟨turns₂, others', changed'⟩ := ih (log ++ turns.filter Turn.called)
    refine ⟨turns₁ :: turns₂, .cons live first' ?_, by simp [changed, changed']⟩
    simpa using others'

/-- What the recorded passes write down are the calls. -/
theorem Runs.log (runs : Runs m passes start turns final) :
    (run m (passes.map .recorded) (start.1, []) start.2).result =
      .ok ((turns.flatten.any Turn.changed, final.1, turns.flatten.filter Turn.called), final.2) :=
  have ⟨turns', runs', changed⟩ := runs.recorded []
  run_eq_ok.mpr ⟨turns', runs', changed⟩

end Pipeline
end ModuleIR
