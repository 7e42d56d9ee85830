import ModuleIR.Proofs.Pipeline.Filling

set_option autoImplicit false

/-!
# Runs of a pipeline, round by round

When a pipeline is run several times, a pass on modules that is in it has one turn in each round. If
that is a print pass, and the passes around it leave the outlet alone, the outlet gets what the rounds
have to print one after another, as much of it as there is room for.
-/
namespace ModuleIR

open Build

namespace Pass

variable {σ : Type} {m : ModuleRef} {pass : Pass σ} {start final : Situation σ} {p : σ → Prop}

/-- No turn of the pass brings `p` to an end. -/
def Preserves (pass : Pass σ) (p : σ → Prop) : Prop :=
  ∀ t, pass.Takes t → p t.before.1 → p t.after.1

theorem Turns.preserves {turns : List (Turn σ)} (h : pass.Turns m start turns final)
    (preserves : pass.Preserves p) (fits : p start.1) : p final.1 := by
  obtain ⟨-, takes, linked⟩ := h
  induction turns generalizing start with
  | nil => exact linked ▸ fits
  | cons t rest ih =>
    obtain ⟨first, later⟩ := List.forall_mem_cons.mp takes
    obtain ⟨rfl, linked⟩ := linked
    exact ih (preserves t first fits) later linked

end Pass

namespace Pipeline

variable {σ : Type} {m : ModuleRef} {passes before after : List (Pass σ)} {pass : Pass σ}
  {start final : Situation σ} {p : σ → Prop}

theorem Runs.preserves {turns : List (List (Turn σ))} (runs : Runs m passes start turns final)
    (preserves : ∀ pass ∈ passes, pass.Preserves p) (fits : p start.1) : p final.1 := by
  induction runs with
  | nil => exact fits
  | cons _ first _ ih =>
    obtain ⟨own, others⟩ := List.forall_mem_cons.mp preserves
    exact ih others (first.preserves own fits)

/-- Runs of a pipeline one after another, with the turn that a pass in it has in each. -/
inductive Rounds (m : ModuleRef) (before : List (Pass σ)) (pass : Pass σ) (after : List (Pass σ)) :
    Situation σ → List (Turn σ) → Situation σ → Prop
  | nil {here : Situation σ} : Rounds m before pass after here [] here
  | cons {start mid final : Situation σ} {t : Turn σ} {later : List (Turn σ)}
      {turns₁ turns₂ : List (List (Turn σ))} {r : ModuleRecord}
      (front : Runs m before start turns₁ t.before) (live : t.before.2.module m = .ok r)
      (taken : pass.Takes t) (target : t.target = .module m) (back : Runs m after t.after turns₂ mid)
      (others : Rounds m before pass after mid later final) :
      Rounds m before pass after start (t :: later) final

theorem run_eq_ok_around {name : String} {call : ModuleRef → StateT σ Build Bool} {s s' : σ}
    {ctx ctx' : Context} :
    (∃ modified, (run m (before ++ .onModule name call :: after) s ctx).result =
      .ok ((modified, s'), ctx')) ↔ ∃ (t : Turn σ) (turns₁ turns₂ : List (List (Turn σ)))
        (r : ModuleRecord), Runs m before (s, ctx) turns₁ t.before ∧ t.before.2.module m = .ok r ∧
          (Pass.onModule name call).Takes t ∧ t.target = .module m ∧
            Runs m after t.after turns₂ (s', ctx') := by
  simp only [run_eq_ok, runs_append]
  constructor
  · rintro ⟨_, _, ⟨turns₁, _, mid, rfl, front, _ | ⟨live, own, back⟩⟩, rfl⟩
    obtain ⟨t, rfl, taken, target, rfl, rfl⟩ := Pass.turns_onModule.mp own
    exact ⟨t, _, _, _, front, live, taken, target, back⟩
  · rintro ⟨t, turns₁, turns₂, r, front, live, taken, target, back⟩
    have own := Pass.turns_onModule.mpr ⟨t, rfl, taken, target, rfl, rfl⟩
    exact ⟨_, _, ⟨turns₁, _, t.before, rfl, front, .cons live own back⟩, rfl⟩

theorem runTimes_eq_ok {name : String} {call : ModuleRef → StateT σ Build Bool} {s s' : σ}
    {ctx ctx' : Context} {times : Nat} :
    (∃ answers, (runTimes m (before ++ .onModule name call :: after) times s ctx).result =
      .ok ((answers, s'), ctx')) ↔ ∃ turns, turns.length = times ∧
        Rounds m before (.onModule name call) after (s, ctx) turns (s', ctx') := by
  induction times generalizing s ctx with
  | zero =>
    simp only [runTimes, state_pure_eq_ok, List.length_eq_zero_iff]
    constructor
    · rintro ⟨_, -, rfl, rfl⟩
      exact ⟨[], rfl, .nil⟩
    · rintro ⟨_, rfl, ⟨⟩⟩
      exact ⟨[], rfl, rfl, rfl⟩
  | succ times ih =>
    simp only [runTimes, state_bind_eq_ok, state_pure_eq_ok]
    constructor
    · rintro ⟨_, modified, s₁, ctx₁, first, answers, _, _, others, -, rfl, rfl⟩
      obtain ⟨t, turns₁, turns₂, r, front, live, taken, target, back⟩ :=
        run_eq_ok_around.mp ⟨modified, first⟩
      obtain ⟨later, rfl, rounds⟩ := ih.mp ⟨answers, others⟩
      exact ⟨t :: later, rfl, .cons front live taken target back rounds⟩
    · rintro ⟨_, counted, _ | ⟨front, live, taken, target, back, rounds⟩⟩
      · simp at counted
      · obtain ⟨modified, first⟩ := run_eq_ok_around.mpr ⟨_, _, _, _, front, live, taken, target, back⟩
        obtain ⟨answers, others⟩ := ih.mpr ⟨_, by simpa using counted, rounds⟩
        exact ⟨_, modified, _, _, first, answers, _, _, others, rfl, rfl, rfl⟩

/-- Up to a turn there are the rounds before, and the passes that come first in its own round. -/
theorem Rounds.upTo {earlier later : List (Turn σ)} {t : Turn σ}
    (rounds : Rounds m before pass after start (earlier ++ t :: later) final) :
    ∃ mid turns r, Rounds m before pass after start earlier mid ∧ Runs m before mid turns t.before ∧
      t.before.2.module m = .ok r ∧ pass.Takes t ∧ t.target = .module m := by
  induction earlier generalizing start with
  | nil =>
    obtain _ | ⟨front, live, taken, target, -, -⟩ := rounds
    exact ⟨start, _, _, .nil, front, live, taken, target⟩
  | cons first rest ih =>
    obtain _ | ⟨front, live, taken, target, back, others⟩ := rounds
    obtain ⟨mid, turns, r, rounds', last⟩ := ih others
    exact ⟨mid, turns, r, .cons front live taken target back rounds', last⟩

end Pipeline

/-! ### Rounds of a print pass -/

section Print

variable {σ : Type} {outlet : Outlet σ} {holds : Array UInt8 → Nat → σ → Prop}
  {content : Array UInt8} {room : Nat} {m : ModuleRef} {banner : String}

/-- In its turn a print pass writes what there is room for, reports it if there was more or the flush
fails, and leaves the context as it is. -/
theorem Pass.print_turn {t : Turn σ} {r : ModuleRecord} (fills : outlet.Fills holds)
    (held : holds content room t.before.1) (live : t.before.2.module m = .ok r)
    (taken : (Pass.print outlet banner).Takes t) (target : t.target = .module m) :
    t.answer = some false ∧ t.after.2 = t.before.2 ∧
      let bytes := toPrint banner m t.before.2
      holds (content ++ bytes.take room) (room - bytes.length) t.after.1 ∧
      ∃ reason mid, holds (content ++ bytes.take room) (room - bytes.length) mid ∧
        ((print outlet banner).run m t.before.1 t.before.2).events =
          if room < bytes.length then [.printFailed r.name reason]
          else flushFailure outlet r.name mid := by
  obtain ⟨reason, mid, s', held', held'', outcome⟩ := print_outcome fills banner held live
  cases taken with
  | @onModule _ _ m' answer before after call =>
    obtain rfl : m = m' := (Target.module.inj target).symm
    obtain ⟨state, context⟩ := after
    replace call : ((print outlet banner).run m before.1 before.2).result =
      .ok ((answer, state), context) := call
    have ended : ((print outlet banner).run m before.1 before.2) =
        ⟨if room < (toPrint banner m before.2).length then [.printFailed r.name reason]
          else flushFailure outlet r.name mid, .ok ((false, s'), before.2)⟩ := by
      rw [outcome] at call ⊢
      split
      · rfl
      · rename_i fits
        rw [if_neg fits] at call
        cases text : before.2.moduleText m with
        | ok text => rfl
        | error violation =>
          rw [text] at call
          cases call
    obtain ⟨⟨rfl, rfl⟩, rfl⟩ : (false = answer ∧ s' = state) ∧ before.2 = context := by
      simpa [ended] using call
    exact ⟨rfl, rfl, held'', reason, mid, held', by rw [ended]⟩

def Pass.toPrintIn (banner : String) (m : ModuleRef) (turns : List (Turn σ)) : List UInt8 :=
  turns.flatMap fun t => toPrint banner m t.before.2

variable {before after : List (Pass σ)} {start final : Situation σ} {turns : List (Turn σ)}

namespace Pipeline

theorem Rounds.delivered (fills : outlet.Fills holds)
    (leaves : ∀ pass ∈ before ++ after, ∀ content room, pass.Preserves (holds content room))
    (rounds : Rounds m before (.print outlet banner) after start turns final)
    (held : holds content room start.1) :
    holds (content ++ (Pass.toPrintIn banner m turns).take room)
      (room - (Pass.toPrintIn banner m turns).length) final.1 := by
  obtain ⟨front', back'⟩ := List.forall_mem_append.mp leaves
  induction rounds generalizing content room with
  | nil => simpa [Pass.toPrintIn] using held
  | @cons _ _ _ t later _ _ _ front live taken target back _ ih =>
    have here := front.preserves (fun pass mem => front' pass mem content room) held
    obtain ⟨-, -, there, -⟩ := Pass.print_turn fills here live taken target
    have next := ih (back.preserves (fun pass mem => back' pass mem _ _) there)
    simp only [Pass.toPrintIn, List.flatMap_cons, List.length_append, List.take_append,
      Outlet.append_append, Nat.sub_add_eq]
    exact next

end Pipeline
end Print
end ModuleIR
