import ModuleIR.Listing.Piece
import ModuleIR.Storage.Stream

set_option autoImplicit false

/-!
# Outlets

An outlet is where printed bytes go: it tries to take some bytes, changing the state it belongs to,
and answers how many it took or why it took none. Listings are delivered piece by piece; delivery
stops at the first refusal and at the first violation, and ends with a flush.
-/
namespace ModuleIR

/-- Attempts to write, and a flush, over a state. An attempt that is interrupted is made again, and
is none of these. -/
structure Outlet (σ : Type) where
  write : List UInt8 → σ → Except WriteFault Nat × σ
  flush : σ → Option WriteFault × σ
  taken_le : ∀ {bytes s count s'}, write bytes s = (.ok count, s') → count ≤ bytes.length

/-- A buffer in memory, with the room that is left in it when it is bounded. -/
structure Buffer where
  content : Array UInt8 := #[]
  room : Option Nat := none
  deriving DecidableEq, Repr, Inhabited

namespace Buffer

def write (b : Buffer) (bytes : List UInt8) : Except WriteFault Nat × Buffer :=
  match b.room with
  | none => (.ok bytes.length, { b with content := b.content ++ bytes })
  | some 0 => (.error .bufferFull, b)
  | some room =>
    let taken := bytes.take room
    (.ok taken.length, { content := b.content ++ taken, room := some (room - taken.length) })

theorem write_taken_le {b b' : Buffer} {bytes : List UInt8} {count : Nat}
    (h : b.write bytes = (.ok count, b')) : count ≤ bytes.length := by
  rw [write] at h
  split at h
  · cases h
    exact Nat.le_refl _
  · cases h
  · cases h
    exact List.length_take_le' _ _

def outlet : Outlet Buffer where
  write bytes b := b.write bytes
  flush b := (none, b)
  taken_le := write_taken_le

end Buffer

/-- A stream with the storage that it writes to. -/
structure Sink where
  stream : Stream
  storage : Storage
  deriving DecidableEq, Repr

def Sink.outlet : Outlet Sink where
  write bytes sink :=
    let (answer, stream, storage) := sink.stream.write sink.storage bytes
    (answer, ⟨stream, storage⟩)
  flush sink :=
    let (fault, stream, storage) := sink.stream.flush sink.storage
    (fault, ⟨stream, storage⟩)
  taken_le h := by
    obtain ⟨taken, rfl⟩ := Prod.mk.inj h
    exact Stream.write_taken_le (Prod.ext taken rfl)

/-- How the delivery of a listing ends. -/
inductive Delivery where
  | complete
  | refused (fault : WriteFault)
  | broken (violation : Violation)
  deriving DecidableEq, Repr, Inhabited

namespace Outlet

variable {σ τ : Type}

/-- The outlet to a part of a state. Where the part is missing there is nothing to flush, and every
attempt is refused with the fault given for that. -/
def through (outlet : Outlet τ) (part? : σ → Option τ) (put : τ → σ → σ) (missing : WriteFault) :
    Outlet σ where
  write bytes s :=
    match part? s with
    | none => (.error missing, s)
    | some t =>
      let (answer, t) := outlet.write bytes t
      (answer, put t s)
  flush s :=
    match part? s with
    | none => (none, s)
    | some t =>
      let (fault, t) := outlet.flush t
      (fault, put t s)
  taken_le {bytes s _ _} h := by
    cases part : part? s with
    | none => simp [part] at h
    | some t =>
      simp only [part] at h
      exact outlet.taken_le (Prod.ext (Prod.mk.inj h).1 rfl)

/-- Writes until all bytes are taken, or an attempt is refused or takes none. -/
def send (outlet : Outlet σ) : List UInt8 → σ → Option WriteFault × σ
  | [], s => (none, s)
  | byte :: rest, s =>
    match outlet.write (byte :: rest) s with
    | (.error fault, next) => (some fault, next)
    | (.ok 0, next) => (some .nothingTaken, next)
    | (.ok (taken + 1), next) => outlet.send (rest.drop taken) next
termination_by bytes => bytes.length
decreasing_by
  simp only [List.length_drop, List.length_cons]
  omega

def deliver (outlet : Outlet σ) : Listing → σ → Delivery × σ
  | [], s => (.complete, s)
  | piece :: rest, s =>
    match piece.content with
    | .error violation => (.broken violation, s)
    | .ok text =>
      match outlet.send text.toUTF8.toList s with
      | (some fault, next) => (.refused fault, next)
      | (none, next) => deliver outlet rest next

def publish (outlet : Outlet σ) (l : Listing) (s : σ) : Delivery × σ :=
  match outlet.deliver l s with
  | (.complete, next) =>
    let (fault, last) := outlet.flush next
    (fault.elim .complete .refused, last)
  | ended => ended

end Outlet
end ModuleIR
