import ModuleIR.Storage.System

set_option autoImplicit false

/-!
# The life of a stream

A closed stream changes nothing any more, and what it answers depends on one flag: it takes every
write when an opening, a write or the flush at its close has failed, and otherwise it rejects them. So
it is whatever the system answers to the calls before.
-/
namespace ModuleIR

namespace StreamAnswer

variable {ε : Type}

def isRefused : StreamAnswer ε → Bool
  | refused _ => true
  | _ => false

def isUnflushed : StreamAnswer ε → Bool
  | closed events => events.any fun
    | .closeFailed .. => true
    | _ => false
  | _ => false

end StreamAnswer

/-- What a closed stream answers. -/
def StreamCall.answerWhenClosed {ε : Type} (path : String) (failed : Bool) :
    StreamCall → StreamAnswer ε
  | write bytes => if failed then .taken bytes.length else .refused (.closedStream path)
  | flush => .flushed none
  | close => .closed []

namespace OutputStream

variable {σ δ φ ε : Type} {system : System σ δ φ ε} {stream stream' : OutputStream δ}
  {state state' : σ} {answer : StreamAnswer ε} {call : StreamCall}

/-! ### Closed streams -/

theorem perform_of_closed (closed : stream.file = none) (call : StreamCall) :
    stream.perform system state call =
      (call.answerWhenClosed stream.path stream.failed, stream, state) := by
  cases call with
  | write bytes =>
    cases recorded : stream.failed <;>
      simp [perform, write, closed, recorded, StreamCall.answerWhenClosed]
  | flush => simp [perform, flush, closed, StreamCall.answerWhenClosed]
  | close => simp [perform, close, closed, StreamCall.answerWhenClosed]

theorem performAll_of_closed (closed : stream.file = none) (calls : List StreamCall) :
    stream.performAll system state calls =
      (calls.map (·.answerWhenClosed stream.path stream.failed), stream, state) := by
  induction calls with
  | nil => rfl
  | cons call rest ih =>
    rw [performAll, perform_of_closed closed]
    simp only [ih, List.map_cons]

/-! ### Open streams -/

theorem perform_of_open (isOpen : stream.file.isSome = true) (stays : call ≠ .close)
    (done : stream.perform system state call = (answer, stream', state')) :
    stream'.file.isSome = true ∧ stream'.path = stream.path ∧
      stream'.failed = (stream.failed || answer.isRefused) := by
  obtain ⟨file, found⟩ := Option.isSome_iff_exists.mp isOpen
  cases call with
  | close => exact (stays rfl).elim
  | flush =>
    simp only [perform, flush, found, Prod.mk.injEq] at done
    obtain ⟨rfl, rfl, -⟩ := done
    simp [StreamAnswer.isRefused]
  | write bytes =>
    simp only [perform, write, found] at done
    rcases called : system.write file bytes state with ⟨taken | fault, next⟩ <;>
      simp only [called, Prod.mk.injEq] at done <;> obtain ⟨rfl, rfl, -⟩ := done <;>
      simp [StreamAnswer.isRefused]

theorem performAll_of_open {calls : List StreamCall} {answers : List (StreamAnswer ε)}
    (isOpen : stream.file.isSome = true) (stays : .close ∉ calls)
    (done : stream.performAll system state calls = (answers, stream', state')) :
    stream'.file.isSome = true ∧ stream'.path = stream.path ∧
      stream'.failed = (stream.failed || answers.any (·.isRefused)) := by
  induction calls generalizing stream state answers with
  | nil =>
    obtain ⟨rfl, rfl, -⟩ : _ ∧ _ ∧ _ := by simpa [performAll] using done
    simp [isOpen]
  | cons call rest ih =>
    obtain ⟨now, later⟩ := not_or.mp (mt List.mem_cons.mpr stays)
    rcases first : stream.perform system state call with ⟨answer, next, after⟩
    rcases others : next.performAll system after rest with ⟨answers', last⟩
    simp only [performAll, first, others, Prod.mk.injEq] at done
    obtain ⟨rfl, rfl⟩ := done
    obtain ⟨open₁, path₁, failed₁⟩ := perform_of_open isOpen (Ne.symm now) first
    obtain ⟨open₂, path₂, failed₂⟩ := ih open₁ later others
    refine ⟨open₂, path₂.trans path₁, ?_⟩
    rw [failed₂, failed₁, List.any_cons, Bool.or_assoc]

/-- Closing an open stream releases its file, and the record is of the flush too. -/
theorem close_of_open (isOpen : stream.file.isSome = true)
    (done : stream.perform system state .close = (answer, stream', state')) :
    stream'.file = none ∧ stream'.path = stream.path ∧
      stream'.failed = (stream.failed || answer.isUnflushed) := by
  obtain ⟨file, found⟩ := Option.isSome_iff_exists.mp isOpen
  simp only [perform, close, found] at done
  rcases flushed : system.flush file state with ⟨none | fault, next⟩ <;>
    simp only [flushed, Prod.mk.injEq] at done <;> obtain ⟨rfl, rfl, -⟩ := done <;>
    simp [StreamAnswer.isUnflushed]

theorem performAll_append (first later : List StreamCall) :
    stream.performAll system state (first ++ later) =
      let (answers, mid, between) := stream.performAll system state first
      let (answers', last) := mid.performAll system between later
      (answers ++ answers', last) := by
  induction first generalizing stream state with
  | nil => rfl
  | cons call rest ih => simp [performAll, ih]

/-! ### Opening -/

/-- A stream is inert when its opening has failed, and open with nothing recorded otherwise. -/
theorem opened {path : String} {flags : OpenFlags} {error : Option String} {event : Event}
    (run : openOrInert system path flags state = (stream, error, event, state')) :
    stream.path = path ∧ stream.failed = error.isSome ∧ stream.file.isSome = error.isNone := by
  unfold openOrInert at run
  split at run
  · simp only [Prod.mk.injEq] at run
    obtain ⟨rfl, rfl, -⟩ := run
    exact ⟨rfl, rfl, rfl⟩
  · rcases called : system.openFile path flags state with ⟨fault | file, next⟩ <;>
      simp only [called, Prod.mk.injEq] at run <;> obtain ⟨rfl, rfl, -⟩ := run <;>
      exact ⟨rfl, rfl, rfl⟩

end OutputStream

/-! ### Streams over a storage -/

def Refusal.fault : Refusal WriteFault → WriteFault
  | system fault => fault
  | closedStream path => .closedStream path

namespace Stream

def output (s : Stream) : OutputStream Channel where
  path := s.path
  file := if s.isOpen then some s.channel else none
  failed := s.failed

theorem openOrInert_output (storage : Storage) (path : String) (flags : OpenFlags) :
    OutputStream.openOrInert Storage.system path flags storage =
      let (stream, after, error, event) := openOrInert storage path flags
      (stream.output, error.map OpenError.message, event, after) := by
  unfold OutputStream.openOrInert openOrInert tryOpen
  split
  · rfl
  · cases opened : storage.openForWriting path flags with
    | error fault =>
      simp only [Storage.system, opened]
      rfl
    | ok result =>
      simp only [Storage.system, opened]
      rfl

theorem write_output (s : Stream) (storage : Storage) (bytes : List UInt8) :
    (s.output.write Storage.system bytes storage).1.mapError Refusal.fault =
        (s.write storage bytes).1 ∧
      (s.output.write Storage.system bytes storage).2 =
        ((s.write storage bytes).2.1.output, (s.write storage bytes).2.2) := by
  obtain ⟨path, channel, failed⟩ := s
  cases channel with
  | standardOutput => exact ⟨rfl, rfl⟩
  | file place appending position =>
    cases written : storage.writeAt place appending position bytes <;>
      simp [OutputStream.write, Stream.write, output, isOpen, Storage.system, written] <;> rfl
  | closed => cases failed <;> exact ⟨rfl, rfl⟩

theorem flush_output (s : Stream) (storage : Storage) :
    s.output.flush Storage.system storage =
      let (fault, stream, after) := s.flush storage
      (fault, stream.output, after) := by
  obtain ⟨path, channel, failed⟩ := s
  cases channel <;> rfl

theorem close_output (s : Stream) (storage : Storage) :
    s.output.close Storage.system storage = (s.close.2, s.close.1.output, storage) := by
  obtain ⟨path, channel, failed⟩ := s
  cases channel <;> rfl

end Stream

namespace OutputStream

variable {σ δ φ ε : Type}

/-- A stream that could not be opened takes every write and changes nothing. A stream that was opened
and is closed changes nothing either, and closing it again does nothing; it rejects every write if the
system took all writes before and the flush at the close, and otherwise it takes them like one that
could not be opened. It is so whatever the system answers to the calls, and the streams over a storage
are such streams. -/
theorem closed_rejects_unless_failed (system : System σ δ φ ε) (path : String) (flags : OpenFlags)
    (state : σ) :
    (∀ stream message event after,
      openOrInert system path flags state = (stream, some message, event, after) → ∀ calls,
        stream.performAll system after calls =
          (calls.map (·.answerWhenClosed path true), stream, after)) ∧
    (∀ stream event after, openOrInert system path flags state = (stream, none, event, after) →
      ∀ before later, .close ∉ before → ∀ answers used between closing last final,
        stream.performAll system after before = (answers, used, between) →
        used.perform system between .close = (closing, last, final) →
        let failed := answers.any (·.isRefused) || closing.isUnflushed
        stream.performAll system after (before ++ .close :: later) =
          (answers ++ closing :: later.map (·.answerWhenClosed path failed), last, final)) ∧
    (∀ storage : Storage, openOrInert Storage.system path flags storage =
      let (stream, after, error, event) := Stream.openOrInert storage path flags
      (stream.output, error.map OpenError.message, event, after)) ∧
    ∀ (stream : Stream) (storage : Storage),
      (∀ bytes, let (answer, after) := stream.output.write Storage.system bytes storage
        let (answer', stream', storage') := stream.write storage bytes
        answer.mapError Refusal.fault = answer' ∧ after = (stream'.output, storage')) ∧
      (stream.output.flush Storage.system storage =
        let (fault, stream', storage') := stream.flush storage
        (fault, stream'.output, storage')) ∧
      stream.output.close Storage.system storage = (stream.close.2, stream.close.1.output, storage) := by
  refine ⟨?_, ?_, fun storage => Stream.openOrInert_output storage path flags, fun stream storage =>
    ⟨fun bytes => Stream.write_output stream storage bytes, Stream.flush_output stream storage,
      Stream.close_output stream storage⟩⟩
  · intro stream message event after run calls
    obtain ⟨rfl, failed, closed⟩ := opened run
    rw [performAll_of_closed (by simpa using closed), failed]
    rfl
  · intro stream event after run before later stays answers used between closing last final done done'
    obtain ⟨rfl, unfailed, isOpen⟩ := opened run
    obtain ⟨isOpen', path, failed⟩ := performAll_of_open isOpen stays done
    obtain ⟨closed, path', failed'⟩ := close_of_open isOpen' done'
    have recorded : last.failed = (answers.any (·.isRefused) || closing.isUnflushed) := by
      rw [failed', failed, unfailed]
      simp
    rw [performAll_append, done]
    simp only [performAll, done', performAll_of_closed closed, recorded, path', path]

def device (name : String) : OutputStream Channel :=
  ⟨"/dev/" ++ name, some (.file ["dev", name] false 0), false⟩

/-- The full device refuses a byte, and its stream takes the next one when it is closed; the stream of
the null device rejects it. -/
theorem fullDevice_takes_once_closed :
    openOrInert Storage.system "/dev/full" .none .initial =
      (device "full", none, .streamOpened "/dev/full" .none, .initial) ∧
    (device "full").performAll Storage.system .initial [.write [120], .close, .write [121]] =
      ([.refused (.system .noSpace), .closed [.streamClosed "/dev/full"], .taken 1],
        ⟨"/dev/full", none, true⟩, .initial) ∧
    openOrInert Storage.system "/dev/null" .none .initial =
      (device "null", none, .streamOpened "/dev/null" .none, .initial) ∧
    (device "null").performAll Storage.system .initial [.write [120], .close, .write [121]] =
      ([.taken 1, .closed [.streamClosed "/dev/null"], .refused (.closedStream "/dev/null")],
        ⟨"/dev/null", none, false⟩, .initial) := by
  have full : openOrInert Storage.system "/dev/full" .none .initial =
    (device "full", none, .streamOpened "/dev/full" .none, .initial) := by decide +kernel
  have null : openOrInert Storage.system "/dev/null" .none .initial =
    (device "null", none, .streamOpened "/dev/null" .none, .initial) := by decide +kernel
  refine ⟨full, ?_, null, ?_⟩
  · exact (closed_rejects_unless_failed _ _ _ _).2.1 _ _ _ full [.write [120]] [.write [121]]
      (by decide) _ _ _ _ _ _ rfl rfl
  · exact (closed_rejects_unless_failed _ _ _ _).2.1 _ _ _ null [.write [120]] [.write [121]]
      (by decide) _ _ _ _ _ _ rfl rfl

end OutputStream
end ModuleIR
