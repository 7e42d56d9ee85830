import ModuleIR.Storage.Stream

set_option autoImplicit false

/-!
# Streams over any system

The life of a stream depends on what the system below it answers: each opening, write and flush can
fail in its own way, a write can be cut short, and closing flushes first. Here the system is a
parameter, so that its calls can have any outcome; `Storage.system` is the one behind `Stream`.
-/
namespace ModuleIR

/-- The calls that a stream makes, over a state `σ` of the system with open files `δ`. Opening fails
with a `φ`, writing and flushing with an `ε`. -/
structure System (σ δ φ ε : Type) where
  standardOutput : δ
  openFile : String → OpenFlags → σ → Except φ δ × σ
  /-- One attempt to write: how many of the bytes were taken, or why none were. -/
  write : δ → List UInt8 → σ → Except ε Nat × δ × σ
  flush : δ → σ → Option ε × δ × σ
  openMessage : φ → String
  message : ε → String

/-- Why a stream takes no byte: the system refused, or the stream is closed. -/
inductive Refusal (ε : Type) where
  | system (fault : ε)
  | closedStream (path : String)
  deriving DecidableEq, Repr

structure OutputStream (δ : Type) where
  path : String
  /-- The file that is open, until the stream is closed. -/
  file : Option δ
  failed : Bool := false
  deriving DecidableEq, Repr

/-- A call on a stream. -/
inductive StreamCall where
  | write (bytes : List UInt8)
  | flush
  | close
  deriving DecidableEq, Repr

/-- What a call on a stream answers: how many bytes a write took or why it took none, whether the
flush failed, or the events that closing reports. -/
inductive StreamAnswer (ε : Type) where
  | taken (count : Nat)
  | refused (refusal : Refusal ε)
  | flushed (fault : Option ε)
  | closed (events : List Event)
  deriving DecidableEq

namespace OutputStream

variable {σ δ φ ε : Type} (system : System σ δ φ ε)

def openOrInert (path : String) (flags : OpenFlags) (state : σ) :
    OutputStream δ × Option String × Event × σ :=
  if Stream.isStandardOutput path then
    ({ path, file := some system.standardOutput }, none, .standardOutputOpened, state)
  else match system.openFile path flags state with
    | (.ok file, next) => ({ path, file := some file }, none, .streamOpened path flags, next)
    | (.error fault, next) =>
      let message := s!"{path}: {system.openMessage fault}"
      ({ path, file := none, failed := true }, some message, .openFailed message, next)

def write (stream : OutputStream δ) (bytes : List UInt8) (state : σ) :
    Except (Refusal ε) Nat × OutputStream δ × σ :=
  match stream.file with
  | some file =>
    match system.write file bytes state with
    | (.ok taken, file, next) => (.ok taken, { stream with file := some file }, next)
    | (.error fault, file, next) =>
      (.error (.system fault), { stream with file := some file, failed := true }, next)
  | none =>
    if stream.failed then (.ok bytes.length, stream, state)
    else (.error (.closedStream stream.path), stream, state)

def flush (stream : OutputStream δ) (state : σ) : Option ε × OutputStream δ × σ :=
  match stream.file with
  | some file =>
    let (fault, file, next) := system.flush file state
    (fault, { stream with file := some file }, next)
  | none => (none, stream, state)

/-- Flushes and releases the file; a flush that fails is reported and recorded. -/
def close (stream : OutputStream δ) (state : σ) : List Event × OutputStream δ × σ :=
  match stream.file with
  | some file =>
    match system.flush file state with
    | (none, _, next) => ([.streamClosed stream.path], { stream with file := none }, next)
    | (some fault, _, next) =>
      ([.closeFailed stream.path (system.message fault)],
        { stream with file := none, failed := true }, next)
  | none => ([], stream, state)

def perform (stream : OutputStream δ) (state : σ) :
    StreamCall → StreamAnswer ε × OutputStream δ × σ
  | .write bytes =>
    match stream.write system bytes state with
    | (.ok count, after) => (.taken count, after)
    | (.error refusal, after) => (.refused refusal, after)
  | .flush =>
    let (fault, after) := stream.flush system state
    (.flushed fault, after)
  | .close =>
    let (events, after) := stream.close system state
    (.closed events, after)

def performAll (stream : OutputStream δ) (state : σ) :
    List StreamCall → List (StreamAnswer ε) × OutputStream δ × σ
  | [] => ([], stream, state)
  | call :: rest =>
    let (answer, next, after) := stream.perform system state call
    let (answers, last) := next.performAll after rest
    (answer :: answers, last)

end OutputStream

/-- The system over a storage: writes to standard output and to files are taken whole, and there is
nothing to flush. A closed channel is no open file. -/
def Storage.system : System Storage Channel PathFault WriteFault where
  standardOutput := .standardOutput
  openFile path flags s :=
    match s.openForWriting path flags with
    | .ok (place, opened) => (.ok (.file place (flags.contains .append) 0), opened)
    | .error fault => (.error fault, s)
  write channel bytes s :=
    match channel with
    | .standardOutput =>
      (.ok bytes.length, channel, { s with standardOutput := s.standardOutput ++ bytes })
    | .file place appending position =>
      match s.writeAt place appending position bytes with
      | .ok (next, written) => (.ok bytes.length, .file place appending next, written)
      | .error fault => (.error fault, channel, s)
    | .closed => (.ok 0, channel, s)
  flush channel s := (none, channel, s)
  openMessage := PathFault.message
  message := WriteFault.message

end ModuleIR
