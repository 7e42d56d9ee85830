import ModuleIR.Proofs.Pipeline.Rounds
import ModuleIR.Proofs.World.Pipelines

set_option autoImplicit false

/-!
# Print passes in pipelines

A print pass whose outlet fills up ends well like any other, so that a pipeline with it returns when its
other passes do. What its rounds have printed is then a prefix of what they had to print, and exactly
the rounds in which something was left out, or the flush at the end failed, report it.
-/
namespace ModuleIR

open Pipeline Context

variable {σ : Type} {outlet : Outlet σ} {holds : Array UInt8 → Nat → σ → Prop}
  {kind : Situation σ → Prop} {m : ModuleRef}

namespace Pass

/-- A print pass serves where the module has a text, whatever its outlet refuses. -/
theorem print_serves (banner : String)
    (shown : ∀ s ctx, kind (s, ctx) → ∃ text, ctx.moduleText m = .ok text)
    (written : ∀ bytes s ctx, kind (s, ctx) → kind ((outlet.write bytes s).2, ctx))
    (flushed : ∀ s ctx, kind (s, ctx) → kind ((outlet.flush s).2, ctx)) :
    (print outlet banner).Serves kind m := by
  intro s ctx r fits occurs live
  obtain ⟨text, shown⟩ := shown s ctx fits
  have kept := Outlet.publish_keeps (p := fun s => kind (s, ctx))
    (fun bytes s => written bytes s ctx) (fun s => flushed s ctx)
    (l := heading banner ++ Listing.module ctx m) fits
  have ending : (outlet.publish (heading banner ++ Listing.module ctx m) s).1 = .complete ∨
      ∃ fault, (outlet.publish (heading banner ++ Listing.module ctx m) s).1 = .refused fault :=
    Outlet.publish_of_render (render_module banner shown)
  rcases published : outlet.publish (heading banner ++ Listing.module ctx m) s with ⟨how, s'⟩
  rw [published] at kept ending
  refine ⟨false, s', ctx, r, ?_, occurs.evolves, live, kept⟩
  change ((print outlet banner).run m s ctx).result = _
  rw [print_run, published]
  obtain rfl | ⟨fault, rfl⟩ := ending
  · rfl
  · rw [printEnds_refused (moduleName_eq_ok.mpr ⟨r, live, rfl⟩)]

theorem visitEach_preserves {label : String} {modified : Bool} {note : String → σ → σ} {p : σ → Prop}
    (closed : ∀ s name, p s → p (note name s)) : (visitEach label modified note).Preserves p := by
  intro t taken fits
  cases taken with
  | skipped => exact fits
  | onFunction _ _ call =>
    obtain ⟨name, s, ctx, named, noted⟩ := Build.state_bind_eq_ok.mp call
    obtain ⟨-, rfl⟩ := Build.state_lift_eq_ok.mp named
    obtain ⟨same, -⟩ := Build.pure_eq_ok.mp noted
    obtain ⟨-, kept⟩ := Prod.mk.inj same
    exact kept ▸ closed _ _ fits

end Pass

namespace Pipeline

variable {before after : List (Pass σ)}

/-- An outlet with so much room gets from a print pass, over any number of runs of any pipeline that
leaves the outlet to it, as much as there is room for of what the pass has to print in each: the banner
on its line and the text that the module has at that moment. In its turn the pass answers that it
changed nothing, leaves the context as it is, and reports a failure exactly if there was more to print
than room was left, or the flush at its end fails; so exactly if bytes were refused, where no flush
fails. It ends well if there was more, or if the module has a text; so the runs return exactly when the
passes around it do, and they all return if those serve where the module has a text. -/
theorem print_delivers_prefix (fills : outlet.Fills holds) (banner : String)
    (leaves : ∀ pass ∈ before ++ after, ∀ content room, pass.Preserves (holds content room)) :
    (∀ (ctx : Context) text, ctx.moduleText m = .ok text →
      Pass.toPrint banner m ctx = (Pass.printed banner text).toUTF8.toList) ∧
    (∀ s (ctx : Context) content room r, holds content room s → ctx.module m = .ok r →
      ∃ reason mid s',
        let bytes := Pass.toPrint banner m ctx
        holds (content ++ bytes.take room) (room - bytes.length) mid ∧
        holds (content ++ bytes.take room) (room - bytes.length) s' ∧
        (Pass.print outlet banner).run m s ctx =
          if room < bytes.length then ⟨[.printFailed r.name reason], .ok ((false, s'), ctx)⟩
          else match ctx.moduleText m with
            | .ok _ => ⟨Pass.flushFailure outlet r.name mid, .ok ((false, s'), ctx)⟩
            | .error violation => ⟨[], .error violation⟩) ∧
    (∀ times s ctx s' ctx',
      (∃ answers, (runTimes m (before ++ .print outlet banner :: after) times s ctx).result =
        .ok ((answers, s'), ctx')) ↔ ∃ turns, turns.length = times ∧
          Rounds m before (.print outlet banner) after (s, ctx) turns (s', ctx')) ∧
    (∀ (start : Situation σ) turns final content room, holds content room start.1 →
      Rounds m before (.print outlet banner) after start turns final →
      holds (content ++ (Pass.toPrintIn banner m turns).take room)
        (room - (Pass.toPrintIn banner m turns).length) final.1 ∧
      ∀ (earlier : List (Turn σ)) (t : Turn σ) later, turns = earlier ++ t :: later →
        let due := Pass.toPrintIn banner m (earlier ++ [t])
        let refused := room - (Pass.toPrintIn banner m earlier).length <
          (Pass.toPrint banner m t.before.2).length
        t.answer = some false ∧ t.after.2 = t.before.2 ∧
        ∃ r reason mid, t.before.2.module m = .ok r ∧
          holds (content ++ due.take room) (room - due.length) mid ∧
          ((Pass.print outlet banner).run m t.before.1 t.before.2).events =
            (if refused then [.printFailed r.name reason]
            else Pass.flushFailure outlet r.name mid) ∧
          (outlet.Flushes holds →
            (((Pass.print outlet banner).run m t.before.1 t.before.2).events =
              if refused then [.printFailed r.name reason] else []))) ∧
    (∀ (kind : Situation σ → Prop) (w : World) s (ctx : Context), w.Reachable → ctx ∈ w.contexts →
      m ∈ ctx.liveModules → kind (s, ctx) → (∀ pass ∈ before ++ after, pass.Serves kind m) →
      (∀ s (ctx : Context), kind (s, ctx) → ∃ text, ctx.moduleText m = .ok text) →
      (∀ bytes s ctx, kind (s, ctx) → kind ((outlet.write bytes s).2, ctx)) →
      (∀ s ctx, kind (s, ctx) → kind ((outlet.flush s).2, ctx)) → ∀ times,
      ∃ answers s' ctx',
        (runTimes m (before ++ .print outlet banner :: after) times s ctx).result =
          .ok ((answers, s'), ctx')) := by
  refine ⟨fun _ _ => Pass.toPrint_of_text banner, fun s ctx content room r held live =>
    Pass.print_outcome fills banner held live, fun _ _ _ _ _ => runTimes_eq_ok, ?_, ?_⟩
  · rintro start turns final content room held rounds
    refine ⟨rounds.delivered fills leaves held, ?_⟩
    rintro earlier t later rfl
    obtain ⟨mid, turns, r, rounds', front, live, taken, target⟩ := rounds.upTo
    have here := front.preserves
      (fun pass mem => leaves pass (List.mem_append_left _ mem) _ _)
      (rounds'.delivered fills leaves held)
    obtain ⟨answer, same, -, reason, mid', held', events⟩ :=
      Pass.print_turn fills here live taken target
    rw [← Outlet.append_append, ← List.take_append, ← Nat.sub_add_eq, ← List.length_append] at held'
    have due : Pass.toPrintIn banner m (earlier ++ [t]) =
        Pass.toPrintIn banner m earlier ++ Pass.toPrint banner m t.before.2 := by
      simp [Pass.toPrintIn]
    refine ⟨answer, same, r, reason, mid', live, due ▸ held', events, fun flushes => ?_⟩
    rw [events, Pass.flushFailure_eq_nil flushes held']
  · intro kind w s ctx reachable mem live fits serves shown written flushed times
    obtain ⟨r, live⟩ := mem_liveModules.mp live
    obtain ⟨front, back⟩ := List.forall_mem_append.mp serves
    have serves : ∀ pass ∈ before ++ .print outlet banner :: after, pass.Serves kind m :=
      List.forall_mem_append.mpr
        ⟨front, List.forall_mem_cons.mpr ⟨Pass.print_serves banner shown written flushed, back⟩⟩
    exact runTimes_of_serves serves fits ⟨w, reachable, mem⟩ live times

/-- A pass looks at each function with a body, and then the module is printed. -/
def printPasses : List (Pass Outputs) :=
  [.visitEach "seen" false Outputs.note, .print (Outputs.bufferOutlet 0) "before"]

def hundredBytes : Outputs := { buffers := #[{ room := some 100 }] }

def cutText : String :=
  "before\n; ModuleID = 'm'\n\ndefine void @f() \x7b\n\x7d\n\ndeclare void @g()\n" ++
    "before\n; ModuleID = 'm'\n\ndefine voi"

/-- The second time the module is printed the buffer gets full within a function. -/
theorem twicePrinted_cut : ∃ ctx ∈ declared.contexts, ∃ answers o' ctx' turns,
    (runTimes ⟨⟨1⟩, 0⟩ printPasses 2 hundredBytes ctx).result = .ok ((answers, o'), ctx') ∧
    turns.length = 2 ∧ Rounds ⟨⟨1⟩, 0⟩ [.visitEach "seen" false Outputs.note]
      (.print (Outputs.bufferOutlet 0) "before") [] (hundredBytes, ctx) turns (o', ctx') ∧
    (Pass.toPrintIn "before" ⟨⟨1⟩, 0⟩ turns).take 100 = cutText.toUTF8.toList ∧
    ∀ earlier (t : Turn Outputs) later, turns = earlier ++ t :: later → ∃ name reason,
      ((Pass.print (Outputs.bufferOutlet 0) "before").run ⟨⟨1⟩, 0⟩ t.before.1 t.before.2).events =
        if 100 - (Pass.toPrintIn "before" ⟨⟨1⟩, 0⟩ earlier).length <
            (Pass.toPrint "before" ⟨⟨1⟩, 0⟩ t.before.2).length then [.printFailed name reason]
        else [] := by
  have computed : (declared.contexts[0]?).any (fun ctx : Context =>
      (⟨⟨1⟩, 0⟩ : ModuleRef) ∈ ctx.liveModules ∧
      (ctx.moduleText ⟨⟨1⟩, 0⟩).toOption.isSome = true ∧
      (runTimes ⟨⟨1⟩, 0⟩ printPasses 2 hundredBytes ctx).result.toOption.any fun out =>
        out.1.2.buffers[0]? = some ⟨cutText.toUTF8.toList.toArray, some 0⟩) = true := by
    decide +kernel
  obtain ⟨ctx, found, computed⟩ := (Option.any_eq_true _ _).mp computed
  obtain ⟨live, shown, computed⟩ := of_decide_eq_true computed
  obtain ⟨out, ran, cut⟩ := (Option.any_eq_true _ _).mp computed
  obtain ⟨text, shown⟩ := Option.isSome_iff_exists.mp shown
  have mem : ctx ∈ declared.contexts := List.mem_of_getElem? found
  have leaves : ∀ pass ∈ [Pass.visitEach "seen" false Outputs.note] ++ [], ∀ content room,
      pass.Preserves fun o => o.buffers[0]? = some ⟨content, some room⟩ :=
    List.forall_mem_singleton.mpr fun _ _ => Pass.visitEach_preserves fun _ _ held => held
  obtain ⟨-, -, returned, law, served⟩ :=
    print_delivers_prefix (m := ⟨⟨1⟩, 0⟩) (Outputs.bufferOutlet_fills 0) "before" leaves
  obtain ⟨answers, o', ctx', runs⟩ := served (fun p => ∃ text, p.2.moduleText ⟨⟨1⟩, 0⟩ = .ok text)
    declared hundredBytes ctx declared_reachable mem live ⟨text, Checked.toOption_eq_some.mp shown⟩
    (List.forall_mem_singleton.mpr (Pass.visitEach_serves fun _ _ _ held => held))
    (fun _ _ held => held) (fun _ _ _ held => held) (fun _ _ held => held) 2
  obtain ⟨turns, counted, rounds⟩ := (returned 2 hundredBytes ctx o' ctx').mp ⟨answers, runs⟩
  obtain ⟨held, each⟩ := law (hundredBytes, ctx) turns (o', ctx') #[] 100 rfl rounds
  obtain rfl := Except.ok.inj ((Checked.toOption_eq_some.mp ran).symm.trans runs)
  have same := Option.some.inj ((of_decide_eq_true cut).symm.trans held)
  have bytes := congrArg Array.toList (Buffer.mk.inj same).1
  refine ⟨ctx, mem, answers, o', ctx', turns, runs, counted, rounds, by simpa using bytes.symm,
    fun earlier t later parts => ?_⟩
  obtain ⟨-, -, r, reason, -, -, -, -, reports⟩ := each earlier t later parts
  exact ⟨r.name, reason, reports (Outputs.bufferOutlet_flushes 0)⟩

end Pipeline
end ModuleIR
