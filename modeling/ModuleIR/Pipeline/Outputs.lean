import ModuleIR.Build.Cursor
import ModuleIR.Pipeline.Pass

set_option autoImplicit false

/-!
# Outputs of a pipeline

What the passes of one pipeline write to: streams over a storage, buffers in memory, and a record of
what was visited. `Pass.spawn` is a pass that makes new functions while it runs.
-/
namespace ModuleIR

structure Outputs where
  storage : Storage := .initial
  streams : Array Stream := #[]
  buffers : Array Buffer := #[]
  visits : Array String := #[]
  deriving DecidableEq, Repr

namespace Outputs

instance : Inhabited Outputs := ⟨{}⟩

/-- The outlet to a stream, by its position. A place without a stream is like a closed one. -/
def streamOutlet (i : Nat) : Outlet Outputs :=
  Sink.outlet.through (fun o => o.streams[i]?.map (⟨·, o.storage⟩))
    (fun sink o => { o with
      storage := sink.storage, streams := o.streams.modify i fun _ => sink.stream })
    (.closedStream "")

def bufferOutlet (i : Nat) : Outlet Outputs :=
  Buffer.outlet.through (fun o => o.buffers[i]?)
    (fun buffer o => { o with buffers := o.buffers.modify i fun _ => buffer }) .bufferFull

def note (visited : String) (o : Outputs) : Outputs := { o with visits := o.visits.push visited }

def openStream (o : Outputs) (path : String) (flags : OpenFlags) :
    Nat × Option OpenError × Event × Outputs :=
  let (stream, storage, error, event) := Stream.openOrInert o.storage path flags
  (o.streams.size, error, event, { o with storage, streams := o.streams.push stream })

def tryOpenStream (o : Outputs) (path : String) (flags : OpenFlags) :
    Except OpenError (Nat × Event × Outputs) :=
  match Stream.tryOpen o.storage path flags with
  | .ok (stream, storage, event) =>
    .ok (o.streams.size, event, { o with storage, streams := o.streams.push stream })
  | .error e => .error e

def closeStream (o : Outputs) (i : Nat) : Outputs × List Event :=
  match o.streams[i]? with
  | none => (o, [])
  | some stream =>
    let (closed, events) := stream.close
    ({ o with streams := o.streams.modify i fun _ => closed }, events)

end Outputs

/-- For each function with a body, makes an external function `spawned` of the same signature with
one empty block. -/
def Pass.spawn {σ : Type} : Pass σ :=
  .onFunction "spawn" fun f => do
    let record ← (Build.read (·.function f) : StateT σ Build FunctionRecord)
    let spawned ← (Build.createFunction record.signature .external "spawned" record.module :
      StateT σ Build FunctionRef)
    let _ ← (Build.createBlock "entry" (some spawned) none : StateT σ Build BlockRef)
    return true

end ModuleIR
