import ModuleIR.Build.Event
import ModuleIR.Storage.Files

set_option autoImplicit false

/-!
# Output streams

A stream writes to a file, or to standard output for the path `-`, until it is closed. A stream that
could not be opened is inert: it takes every write and keeps nothing, and closing it does nothing.
-/
namespace ModuleIR

structure OpenError where
  path : String
  fault : PathFault
  deriving DecidableEq, Repr, Inhabited

def OpenError.message (e : OpenError) : String := s!"{e.path}: {e.fault.message}"

inductive Channel where
  | standardOutput
  | file (place : Place) (appending : Bool) (position : Nat)
  | closed
  deriving DecidableEq, Repr, Inhabited

structure Stream where
  path : String
  channel : Channel
  /-- Opening or a write has failed. -/
  failed : Bool := false
  deriving DecidableEq, Repr, Inhabited

namespace Stream

def isOpen (s : Stream) : Bool := s.channel ≠ .closed

/-- The path `-` stands for standard output, in any spelling that differs from it only by slashes
and dots behind it. -/
def isStandardOutput (path : String) : Bool :=
  match Storage.pathNames path with
  | first :: rest => first == "-" && path.toList.head? == some '-' && rest.all (· == ".")
  | [] => false

/-- Opens a path: a stream with the storage after it and the event, or the error. -/
def tryOpen (storage : Storage) (path : String) (flags : OpenFlags) :
    Except OpenError (Stream × Storage × Event) :=
  if isStandardOutput path then
    .ok ({ path, channel := .standardOutput }, storage, .standardOutputOpened)
  else match storage.openForWriting path flags with
    | .ok (place, opened) =>
      .ok ({ path, channel := .file place (flags.contains .append) 0 }, opened,
        .streamOpened path flags)
    | .error fault => .error ⟨path, fault⟩

def openOrInert (storage : Storage) (path : String) (flags : OpenFlags) :
    Stream × Storage × Option OpenError × Event :=
  match tryOpen storage path flags with
  | .ok (stream, opened, event) => (stream, opened, none, event)
  | .error e =>
    ({ path, channel := .closed, failed := true }, storage, some e, .openFailed e.message)

def write (s : Stream) (storage : Storage) (bytes : List UInt8) :
    Except WriteFault Nat × Stream × Storage :=
  match s.channel with
  | .standardOutput =>
    (.ok bytes.length, s, { storage with standardOutput := storage.standardOutput ++ bytes })
  | .file place appending position =>
    match storage.writeAt place appending position bytes with
    | .ok (next, written) =>
      (.ok bytes.length, { s with channel := .file place appending next }, written)
    | .error fault => (.error fault, { s with failed := true }, storage)
  | .closed =>
    if s.failed then (.ok bytes.length, s, storage)
    else (.error (.closedStream s.path), s, storage)

/-- Nothing is held back by a stream over a storage, so that a flush has nothing to do. -/
def flush (s : Stream) (storage : Storage) : Option WriteFault × Stream × Storage :=
  (none, s, storage)

theorem write_taken_le {s s' : Stream} {storage storage' : Storage} {bytes : List UInt8} {count : Nat}
    (h : s.write storage bytes = (.ok count, s', storage')) : count ≤ bytes.length := by
  have whole {ok : Nat} {after : Stream × Storage}
      (same : ((.ok ok : Except WriteFault Nat), after) = (.ok count, s', storage'))
      (all : ok = bytes.length) : count ≤ bytes.length := by
    cases same
    exact Nat.le_of_eq all
  unfold write at h
  split at h
  · exact whole h rfl
  · split at h
    · exact whole h rfl
    · cases h
  · split at h
    · exact whole h rfl
    · cases h

/-- Closes the stream. Only the first close of an open stream does anything. -/
def close (s : Stream) : Stream × List Event :=
  if s.isOpen then ({ s with channel := .closed }, [.streamClosed s.path]) else (s, [])

@[simp] theorem isOpen_close (s : Stream) : s.close.1.isOpen = false := by
  unfold close
  split
  · rfl
  · next h => simpa using h

theorem close_of_closed (s : Stream) (h : s.isOpen = false) : s.close = (s, []) := by
  simp [close, h]

end Stream
end ModuleIR
