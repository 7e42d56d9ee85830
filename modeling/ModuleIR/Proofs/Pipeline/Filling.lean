import ModuleIR.Pipeline.Outputs
import ModuleIR.Proofs.Pipeline.Delivery

set_option autoImplicit false

/-!
# Delivery to an outlet that fills up

An outlet with room for so many bytes takes them in whatever portions, and then refuses everything. Of
what is delivered to it as many bytes arrive, wherever the listing is cut into pieces, and the delivery
is refused exactly when there are more. So a print pass writes a prefix of what it has to print, and
reports that there was more, or that the flush failed; the module is as it was.
-/
namespace ModuleIR

namespace Listing

def shown : Listing → List UInt8
  | [] => []
  | piece :: rest =>
    match piece.content with
    | .ok text => text.toUTF8.toList ++ shown rest
    | .error _ => []

theorem shown_of_render {l : Listing} {text : String} (rendered : l.render = .ok text) :
    l.shown = text.toUTF8.toList := by
  induction l generalizing text with
  | nil =>
    obtain rfl := Except.ok.inj rendered
    exact (Text.nameBytes_eq "").symm
  | cons piece rest ih =>
    rw [render_cons] at rendered
    obtain ⟨first, content, rendered⟩ := Checked.bind_eq_ok.mp rendered
    obtain ⟨later, rest', rendered⟩ := Checked.bind_eq_ok.mp rendered
    obtain rfl := Except.ok.inj rendered
    simp only [shown, content, ih rest']
    exact (Text.nameBytes_append first later).symm

end Listing

namespace Outlet

variable {σ : Type} {outlet : Outlet σ} {holds : Array UInt8 → Nat → σ → Prop}
  {content : Array UInt8} {room : Nat} {s : σ}

/-- `holds` says what the outlet has taken, and how many bytes it will still take: an attempt with any
takes one of them at least, and when there is no room left it is refused or takes none. A flush takes
nothing and makes no room. -/
structure Fills (outlet : Outlet σ) (holds : Array UInt8 → Nat → σ → Prop) : Prop where
  takes : ∀ {content room s bytes}, holds content room s → 0 < room → bytes ≠ [] →
    ∃ count s', outlet.write bytes s = (.ok count, s') ∧ 0 < count ∧ count ≤ room ∧
      holds (content ++ bytes.take count) (room - count) s'
  refuses : ∀ {content s bytes}, holds content 0 s → bytes ≠ [] →
    ∃ answer s', outlet.write bytes s = (answer, s') ∧ (∀ count, answer = .ok count → count = 0) ∧
      holds content 0 s'
  flushes : ∀ {content room s}, holds content room s → holds content room (outlet.flush s).2

def Flushes (outlet : Outlet σ) (holds : Array UInt8 → Nat → σ → Prop) : Prop :=
  ∀ content room s, holds content room s → (outlet.flush s).1 = none

namespace Fills

variable (fills : outlet.Fills holds)
include fills

theorem attempt {bytes : List UInt8} {answer : Except WriteFault Nat} {s' : σ}
    (start : holds content room s) (nonempty : bytes ≠ [])
    (written : outlet.write bytes s = (answer, s')) :
    (room = 0 ∧ holds content 0 s' ∧ ∀ count, answer = .ok count → count = 0) ∨
      ∃ count, answer = .ok count ∧ 0 < count ∧ count ≤ room ∧ count ≤ bytes.length ∧
        holds (content ++ bytes.take count) (room - count) s' := by
  rcases room.eq_zero_or_pos with rfl | spare
  · obtain ⟨_, _, refused, none, held⟩ := fills.refuses start nonempty
    obtain ⟨rfl, rfl⟩ := Prod.mk.inj (written.symm.trans refused)
    exact .inl ⟨rfl, held, none⟩
  · obtain ⟨count, _, taken, positive, fits, held⟩ := fills.takes start spare nonempty
    obtain ⟨rfl, rfl⟩ := Prod.mk.inj (written.symm.trans taken)
    exact .inr ⟨count, rfl, positive, fits, outlet.taken_le written, held⟩

/-- Attempts go on until the bytes or the room is used up. -/
theorem send (bytes : List UInt8) (start : holds content room s) : ∃ refusal s',
    outlet.send bytes s = (refusal, s') ∧ (refusal.isSome = true ↔ room < bytes.length) ∧
      holds (content ++ bytes.take room) (room - bytes.length) s' := by
  induction bytes, s using Outlet.send.induct outlet generalizing content room with
  | case1 s => exact ⟨none, s, by rw [Outlet.send], by simp, by simpa using start⟩
  | case2 byte rest s fault next written =>
    obtain ⟨rfl, held, -⟩ | ⟨_, ⟨⟩, -⟩ := fills.attempt start (List.cons_ne_nil _ _) written
    exact ⟨some fault, next, by rw [send_cons, written], by simp, by simpa using held⟩
  | case3 byte rest s next written =>
    obtain ⟨rfl, held, -⟩ | ⟨_, ⟨⟩, positive, -⟩ :=
      fills.attempt start (List.cons_ne_nil _ _) written
    · exact ⟨some .nothingTaken, next, by rw [send_cons, written], by simp, by simpa using held⟩
    · cases positive
  | case4 byte rest s taken next written ih =>
    obtain ⟨-, -, none⟩ | ⟨_, ⟨⟩, -, fits, within, held⟩ :=
      fills.attempt start (List.cons_ne_nil _ _) written
    · cases none _ rfl
    replace within : taken + 1 ≤ rest.length + 1 := within
    obtain ⟨refusal, s', sent, refused, held'⟩ := ih held
    have parts : (byte :: rest).take room =
        (byte :: rest).take (taken + 1) ++ (rest.drop taken).take (room - (taken + 1)) := by
      rw [← List.drop_succ_cons, ← List.take_add]
      congr 1
      omega
    have left : room - (taken + 1) - (rest.drop taken).length = room - (byte :: rest).length := by
      simp only [List.length_drop, List.length_cons]
      omega
    refine ⟨refusal, s', by rw [send_cons, written]; exact sent, ?_, ?_⟩
    · rw [refused, List.length_drop, List.length_cons]
      omega
    · rw [parts, append_append, ← left]
      exact held'

theorem deliver (l : Listing) (start : holds content room s) : ∃ ending s',
    outlet.deliver l s = (ending, s') ∧
      holds (content ++ l.shown.take room) (room - l.shown.length) s' ∧
      (room < l.shown.length → ∃ fault, ending = .refused fault) ∧
      (l.shown.length ≤ room →
        ending = match l.render with
          | .ok _ => .complete
          | .error violation => .broken violation) := by
  induction l generalizing content room s with
  | nil => exact ⟨.complete, s, rfl, by simpa [Listing.shown] using start, by simp [Listing.shown],
      fun _ => rfl⟩
  | cons piece rest ih =>
    rw [Listing.render_cons]
    cases read : piece.content with
    | error violation =>
      refine ⟨.broken violation, s, by simp [Outlet.deliver, read], ?_, ?_, fun _ => rfl⟩
      · simpa [Listing.shown, read] using start
      · simp [Listing.shown, read]
    | ok text =>
      obtain ⟨refusal, mid, sent, refused, held⟩ := fills.send text.toUTF8.toList start
      simp only [Outlet.deliver, Listing.shown, read, sent, List.length_append]
      cases refusal with
      | some fault =>
        have more := refused.mp rfl
        refine ⟨.refused fault, mid, rfl, ?_, fun _ => ⟨fault, rfl⟩, fun fits => ?_⟩
        · rw [List.take_append_of_le_length (Nat.le_of_lt more),
            show room - (_ + _) = room - text.toUTF8.toList.length by omega]
          exact held
        · omega
      | none =>
        have fits : ¬room < text.toUTF8.toList.length := fun more => by simpa using refused.mpr more
        obtain ⟨ending, s', delivered, held', more, all⟩ := ih held
        refine ⟨ending, s', delivered, ?_, fun beyond => more (by omega), fun within => ?_⟩
        · rw [List.take_append, append_append, Nat.sub_add_eq]
          exact held'
        · rw [all (by omega)]
          cases Listing.render rest <;> rfl

/-- What has been delivered is flushed; nothing else can fail when there is room for all of it. -/
theorem publish (l : Listing) (start : holds content room s) : ∃ ending s',
    outlet.publish l s = (ending, s') ∧
      holds (content ++ l.shown.take room) (room - l.shown.length) s' ∧
      (room < l.shown.length → ∃ fault, ending = .refused fault) ∧
      (l.shown.length ≤ room → ∃ mid,
        holds (content ++ l.shown.take room) (room - l.shown.length) mid ∧
        ending = match l.render with
          | .ok _ => (outlet.flush mid).1.elim .complete .refused
          | .error violation => .broken violation) := by
  obtain ⟨ending, mid, delivered, held, more, all⟩ := fills.deliver l start
  by_cases whole : l.shown.length ≤ room ∧ ∃ text, l.render = .ok text
  · obtain ⟨within, text, rendered⟩ := whole
    obtain rfl : ending = .complete := by rw [all within, rendered]
    refine ⟨_, _, publish_of_complete delivered, fills.flushes held, fun beyond => by omega,
      fun _ => ⟨mid, held, by rw [rendered]⟩⟩
  · have stopped : ending ≠ .complete := by
      rintro rfl
      by_cases within : l.shown.length ≤ room
      · cases rendered : l.render with
        | ok text => exact whole ⟨within, text, rendered⟩
        | error violation =>
          have ended := all within
          rw [rendered] at ended
          cases ended
      · obtain ⟨fault, ended⟩ := more (by omega)
        cases ended
    refine ⟨ending, mid, publish_of_stopped delivered stopped, held, more, fun within => ?_⟩
    refine ⟨mid, held, ?_⟩
    cases rendered : l.render with
    | ok text => exact absurd ⟨within, text, rendered⟩ whole
    | error violation => rw [all within, rendered]

end Fills

theorem Fills.through {τ : Type} {outlet : Outlet τ} {holds : Array UInt8 → Nat → τ → Prop}
    (fills : outlet.Fills holds) {part? : σ → Option τ} {put : τ → σ → σ} {missing : WriteFault}
    (found : ∀ {s t} t', part? s = some t → part? (put t' s) = some t') :
    (outlet.through part? put missing).Fills fun content room s =>
      ∃ t, part? s = some t ∧ holds content room t where
  takes := by
    rintro content room s bytes ⟨t, part, held⟩ spare nonempty
    obtain ⟨count, t', taken, positive, fits, held'⟩ := fills.takes held spare nonempty
    exact ⟨count, put t' s, by simp [Outlet.through, part, taken], positive, fits, t',
      found t' part, held'⟩
  refuses := by
    rintro content s bytes ⟨t, part, held⟩ nonempty
    obtain ⟨answer, t', refused, none, held'⟩ := fills.refuses held nonempty
    exact ⟨answer, put t' s, by simp [Outlet.through, part, refused], none, t', found t' part,
      held'⟩
  flushes := by
    rintro content room s ⟨t, part, held⟩
    refine ⟨(outlet.flush t).2, ?_, fills.flushes held⟩
    simpa [Outlet.through, part] using found _ part

theorem Flushes.through {τ : Type} {outlet : Outlet τ} {holds : Array UInt8 → Nat → τ → Prop}
    (flushes : outlet.Flushes holds) {part? : σ → Option τ} {put : τ → σ → σ}
    {missing : WriteFault} : (outlet.through part? put missing).Flushes fun content room s =>
      ∃ t, part? s = some t ∧ holds content room t := by
  rintro content room s ⟨t, part, held⟩
  simpa [Outlet.through, part] using flushes content room t held

end Outlet

theorem Buffer.outlet_fills :
    Buffer.outlet.Fills fun content room b => b = { content, room := some room } where
  takes := by
    rintro content room _ bytes rfl spare nonempty
    obtain ⟨room, rfl⟩ := Nat.exists_eq_succ_of_ne_zero (Nat.pos_iff_ne_zero.mp spare)
    have positive := List.length_pos_iff.mpr nonempty
    have taken : bytes.take (bytes.take (room + 1)).length = bytes.take (room + 1) := by
      rw [List.length_take, ← List.take_eq_take_min]
    refine ⟨(bytes.take (room + 1)).length, _, rfl, ?_, List.length_take_le _ _, ?_⟩
    · rw [List.length_take]
      omega
    · rw [taken]
  refuses := by
    rintro content _ bytes rfl -
    exact ⟨.error .bufferFull, _, rfl, by simp, rfl⟩
  flushes held := held

theorem Buffer.outlet_flushes :
    Buffer.outlet.Flushes fun content room b => b = { content, room := some room } :=
  fun _ _ _ _ => rfl

namespace Outputs

theorem bufferOutlet_fills (i : Nat) : (bufferOutlet i).Fills fun content room o =>
    o.buffers[i]? = some { content, room := some room } := by
  have fills : (bufferOutlet i).Fills _ := Buffer.outlet_fills.through fun {o b} b' found => by
    rw [Array.getElem?_modify, if_pos rfl, found]
    rfl
  simpa only [exists_eq_right] using fills

theorem bufferOutlet_flushes (i : Nat) : (bufferOutlet i).Flushes fun content room o =>
    o.buffers[i]? = some { content, room := some room } := by
  have flushes : (bufferOutlet i).Flushes _ := Buffer.outlet_flushes.through
  simpa only [exists_eq_right] using flushes

end Outputs

namespace Pass

variable {σ : Type} {outlet : Outlet σ} {holds : Array UInt8 → Nat → σ → Prop}
  {content : Array UInt8} {room : Nat} {s : σ} {ctx : Context} {m : ModuleRef} {r : ModuleRecord}

/-- What a print pass has to write: the banner on its line, and the text of the module as far as it
can be read. -/
def toPrint (banner : String) (m : ModuleRef) (ctx : Context) : List UInt8 :=
  (heading banner ++ Listing.module ctx m).shown

theorem toPrint_of_text {text : String} (banner : String) (shown : ctx.moduleText m = .ok text) :
    toPrint banner m ctx = (printed banner text).toUTF8.toList :=
  Listing.shown_of_render (render_module banner shown)

def flushFailure (outlet : Outlet σ) (name : String) (s : σ) : List Event :=
  (outlet.flush s).1.toList.map fun fault => .printFailed name fault.message

theorem flushFailure_eq_nil (flushes : outlet.Flushes holds) (held : holds content room s)
    (name : String) : flushFailure outlet name s = [] := by
  rw [flushFailure, flushes _ _ _ held]
  rfl

/-- A print pass writes what there is room for. If there was more, it ends well and says so. Otherwise
it ends well if the module has a text, and says so if the flush fails. -/
theorem print_outcome (fills : outlet.Fills holds) (banner : String) (start : holds content room s)
    (live : ctx.module m = .ok r) : ∃ reason mid s',
      let bytes := toPrint banner m ctx
      holds (content ++ bytes.take room) (room - bytes.length) mid ∧
      holds (content ++ bytes.take room) (room - bytes.length) s' ∧
      (print outlet banner).run m s ctx =
        if room < bytes.length then ⟨[.printFailed r.name reason], .ok ((false, s'), ctx)⟩
        else match ctx.moduleText m with
          | .ok _ => ⟨flushFailure outlet r.name mid, .ok ((false, s'), ctx)⟩
          | .error violation => ⟨[], .error violation⟩ := by
  obtain ⟨ending, s', published, held, more, all⟩ :=
    fills.publish (heading banner ++ Listing.module ctx m) start
  have named := Context.moduleName_eq_ok.mpr ⟨r, live, rfl⟩
  rw [print_run, published]
  by_cases beyond : room < (toPrint banner m ctx).length
  · obtain ⟨fault, rfl⟩ := more beyond
    exact ⟨fault.message, s', s', held, held, by rw [if_pos beyond, printEnds_refused named]⟩
  · obtain ⟨mid, held', rfl⟩ := all (Nat.le_of_not_lt beyond)
    refine ⟨"", mid, s', held', held, ?_⟩
    rw [if_neg beyond, render_heading, show (Listing.module ctx m).render = ctx.moduleText m from rfl]
    cases ctx.moduleText m with
    | error violation => rfl
    | ok text =>
      change printEnds m ((outlet.flush mid).1.elim .complete .refused, s') ctx = _
      cases flushed : (outlet.flush mid).1 with
      | none => simp [flushFailure, flushed]; rfl
      | some fault => simp [flushFailure, flushed, printEnds_refused named]

end Pass
end ModuleIR
