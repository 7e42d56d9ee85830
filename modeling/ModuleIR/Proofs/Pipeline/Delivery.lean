import ModuleIR.Proofs.Pipeline.Turns
import ModuleIR.Proofs.Text.Bytes

set_option autoImplicit false

/-!
# Delivery to an outlet

The delivery of a listing that has a text is complete or refused, and keeps what every attempt to write
keeps. An outlet that takes whatever it is given holds then what it held before and the bytes of the
text. So it does after a print pass, with the banner on a line before the text, and the module is as it
was.
-/
namespace ModuleIR

open Build

variable {σ : Type} {s : σ} {ctx : Context} {m : ModuleRef}

namespace Outlet

/-! ### Any outlet -/

section Any

variable {outlet : Outlet σ}

theorem send_cons (byte : UInt8) (rest : List UInt8) (s : σ) : outlet.send (byte :: rest) s =
    match outlet.write (byte :: rest) s with
    | (.error fault, next) => (some fault, next)
    | (.ok 0, next) => (some .nothingTaken, next)
    | (.ok (taken + 1), next) => outlet.send (rest.drop taken) next :=
  send.eq_def outlet (byte :: rest) s

theorem publish_of_complete {l : Listing} {mid : σ}
    (delivered : outlet.deliver l s = (.complete, mid)) : outlet.publish l s =
      ((outlet.flush mid).1.elim .complete .refused, (outlet.flush mid).2) := by
  rw [publish, delivered]

theorem publish_of_stopped {l : Listing} {s' : σ} {ending : Delivery}
    (delivered : outlet.deliver l s = (ending, s')) (stopped : ending ≠ .complete) :
    outlet.publish l s = (ending, s') := by
  rw [publish, delivered]
  cases ending with
  | complete => exact absurd rfl stopped
  | refused | broken => rfl

variable {p : σ → Prop} (keeps : ∀ bytes s, p s → p (outlet.write bytes s).2)
include keeps

theorem send_keeps {bytes : List UInt8} (fits : p s) : p (outlet.send bytes s).2 := by
  induction bytes, s using send.induct outlet with
  | case1 => simpa [send] using fits
  | case2 byte rest s _ next attempt =>
    have kept := keeps (byte :: rest) s fits
    rw [send_cons, attempt]
    simpa [attempt] using kept
  | case3 byte rest s next attempt =>
    have kept := keeps (byte :: rest) s fits
    rw [send_cons, attempt]
    simpa [attempt] using kept
  | case4 byte rest s taken next attempt ih =>
    have kept := keeps (byte :: rest) s fits
    rw [send_cons, attempt]
    exact ih (by simpa [attempt] using kept)

/-- A delivery keeps what every attempt does. -/
theorem deliver_keeps {l : Listing} (fits : p s) : p (outlet.deliver l s).2 := by
  induction l generalizing s with
  | nil => exact fits
  | cons piece rest ih =>
    rw [deliver]
    cases piece.content with
    | error violation => exact fits
    | ok text =>
      have next : p (outlet.send text.toUTF8.toList s).2 := send_keeps keeps fits
      simp only
      rcases sent : outlet.send text.toUTF8.toList s with ⟨none | fault, s'⟩ <;> rw [sent] at next
      · exact ih next
      · exact next

theorem publish_keeps (flushed : ∀ s, p s → p (outlet.flush s).2) {l : Listing} (fits : p s) :
    p (outlet.publish l s).2 := by
  have delivered := deliver_keeps keeps fits (l := l)
  rcases run : outlet.deliver l s with ⟨ending, mid⟩
  rw [run] at delivered
  by_cases stopped : ending = .complete
  · rw [publish_of_complete (stopped ▸ run)]
    exact flushed mid delivered
  · rw [publish_of_stopped run stopped]
    exact delivered

end Any

theorem deliver_of_render {outlet : Outlet σ} {l : Listing} {text : String}
    (rendered : l.render = .ok text) :
    (outlet.deliver l s).1 = .complete ∨ ∃ fault, (outlet.deliver l s).1 = .refused fault := by
  induction l generalizing s text with
  | nil => exact .inl rfl
  | cons piece rest ih =>
    rw [Listing.render_cons] at rendered
    obtain ⟨first, shown, rendered⟩ := Checked.bind_eq_ok.mp rendered
    obtain ⟨later, shown', -⟩ := Checked.bind_eq_ok.mp rendered
    rw [deliver, shown]
    simp only
    rcases outlet.send first.toUTF8.toList s with ⟨none | fault, s'⟩
    · exact ih shown'
    · exact .inr ⟨fault, rfl⟩

theorem publish_of_render {outlet : Outlet σ} {l : Listing} {text : String}
    (rendered : l.render = .ok text) :
    (outlet.publish l s).1 = .complete ∨ ∃ fault, (outlet.publish l s).1 = .refused fault := by
  have ending : (outlet.deliver l s).1 = .complete ∨
      ∃ fault, (outlet.deliver l s).1 = .refused fault := deliver_of_render rendered
  rcases delivered : outlet.deliver l s with ⟨how, mid⟩
  rw [delivered] at ending
  obtain rfl | ⟨fault, rfl⟩ := ending
  · rw [publish_of_complete delivered]
    cases (outlet.flush mid).1 with
    | none => exact .inl rfl
    | some fault => exact .inr ⟨fault, rfl⟩
  · rw [publish_of_stopped delivered (by simp)]
    exact .inr ⟨fault, rfl⟩

/-! ### An outlet that takes everything -/

variable {outlet : Outlet σ} {holds : Array UInt8 → σ → Prop} {content : Array UInt8}

theorem append_append (first later : List UInt8) :
    content ++ (first ++ later) = content ++ first ++ later :=
  Array.toList_inj.mp (by simp)

/-- The outlet takes whatever it is given, and `holds` says what it has taken. -/
structure Keeps (outlet : Outlet σ) (holds : Array UInt8 → σ → Prop) : Prop where
  write : ∀ content s bytes, holds content s →
    ∃ s', outlet.write bytes s = (.ok bytes.length, s') ∧ holds (content ++ bytes) s'
  flush : ∀ content s, holds content s → ∃ s', outlet.flush s = (none, s') ∧ holds content s'

namespace Keeps

variable (keeps : outlet.Keeps holds)
include keeps

theorem send (bytes : List UInt8) (start : holds content s) :
    ∃ s', outlet.send bytes s = (none, s') ∧ holds (content ++ bytes) s' := by
  cases bytes with
  | nil => exact ⟨s, by rw [Outlet.send], by simpa using start⟩
  | cons byte rest =>
    obtain ⟨s', taken, held⟩ := keeps.write content s (byte :: rest) start
    refine ⟨s', ?_, held⟩
    rw [send_cons, taken]
    simp [Outlet.send]

theorem deliver {l : Listing} {text : String} (rendered : l.render = .ok text)
    (start : holds content s) :
    ∃ s', outlet.deliver l s = (.complete, s') ∧ holds (content ++ Text.nameBytes text) s' := by
  induction l generalizing s content text with
  | nil =>
    obtain rfl := Except.ok.inj rendered
    exact ⟨s, rfl, by simpa [Text.nameBytes_eq] using start⟩
  | cons piece rest ih =>
    rw [Listing.render_cons] at rendered
    obtain ⟨first, shown, rendered⟩ := Checked.bind_eq_ok.mp rendered
    obtain ⟨later, shown', rendered⟩ := Checked.bind_eq_ok.mp rendered
    obtain rfl := Except.ok.inj rendered
    obtain ⟨mid, sent, held⟩ := keeps.send first.toUTF8.toList start
    obtain ⟨s', delivered, held'⟩ := ih shown' held
    refine ⟨s', ?_, ?_⟩
    · rw [Outlet.deliver, shown]
      simp only [sent]
      exact delivered
    · rw [Text.nameBytes_append, append_append]
      exact held'

theorem publish {l : Listing} {text : String} (rendered : l.render = .ok text)
    (start : holds content s) :
    ∃ s', outlet.publish l s = (.complete, s') ∧ holds (content ++ Text.nameBytes text) s' := by
  obtain ⟨mid, delivered, held⟩ := keeps.deliver rendered start
  obtain ⟨s', flushed, held'⟩ := keeps.flush _ mid held
  refine ⟨s', ?_, held'⟩
  rw [publish_of_complete delivered, flushed]
  rfl

end Keeps
end Outlet

namespace Pass

def printed (banner text : String) : String :=
  if banner.isEmpty then text else banner ++ "\n" ++ text

def heading (banner : String) : Listing :=
  if banner.isEmpty then [] else [.text banner, .text "\n"]

theorem render_heading (banner : String) (l : Listing) :
    Listing.render (heading banner ++ l) = l.render.map (printed banner) := by
  rw [Listing.render_append, heading]
  cases l.render <;> unfold printed <;> split <;>
    simp [Listing.render_cons, Piece.content, Except.map]

theorem render_module {text : String} (banner : String) (shown : ctx.moduleText m = .ok text) :
    Listing.render (heading banner ++ Listing.module ctx m) = .ok (printed banner text) := by
  rw [render_heading, show (Listing.module ctx m).render = .ok text from shown]
  rfl

/-- How a print pass ends, by how the delivery does. -/
def printEnds (m : ModuleRef) : Delivery × σ → Build (Bool × σ)
  | (.complete, next) => return (false, next)
  | (.refused fault, next) => do
    Build.emit (.printFailed (← Build.read (·.moduleName m)) fault.message)
    return (false, next)
  | (.broken violation, _) => Build.fail violation

theorem print_run (outlet : Outlet σ) (banner : String) : (print outlet banner).run m s ctx =
    printEnds m (outlet.publish (heading banner ++ Listing.module ctx m) s) ctx := rfl

theorem printEnds_refused {name : String} (named : ctx.moduleName m = .ok name) (fault : WriteFault)
    (next : σ) : printEnds m (.refused fault, next) ctx =
      ⟨[.printFailed name fault.message], .ok ((false, next), ctx)⟩ := by
  change Build.andThen (Build.read (·.moduleName m)) _ ctx = _
  simp only [Build.andThen, Build.read, named, Except.map]
  rfl

end Pass

namespace Pipeline

end Pipeline
end ModuleIR
