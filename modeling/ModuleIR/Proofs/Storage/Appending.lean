import ModuleIR.Proofs.Storage.Paths

set_option autoImplicit false

/-!
# Files that a stream writes to

A path that names a regular file, or a name that is free in a directory, is opened unless the file
must not exist yet and does. The stream then stands at the end of what the file holds, and stays
there: each write is taken whole and adds its bytes, and nothing changes anywhere else.
-/
namespace ModuleIR

namespace Storage

variable {s s' s'' : Storage} {path : String} {place : Place} {content : Array UInt8}
  {old : Option (Array UInt8)} {flags : OpenFlags}

/-- The storages differ at most in what stands at the place. -/
structure SameBut (place : Place) (s s' : Storage) : Prop where
  nodes : ∀ other ≠ place, s'.node? other = s.node? other
  standardOutput : s'.standardOutput = s.standardOutput

theorem SameBut.refl : SameBut place s s := ⟨fun _ _ => rfl, rfl⟩

theorem SameBut.trans (h : SameBut place s s') (h' : SameBut place s' s'') :
    SameBut place s s'' :=
  ⟨fun other away => (h'.nodes other away).trans (h.nodes other away),
    h'.standardOutput.trans h.standardOutput⟩

theorem sameBut_setNode {node : Node} : SameBut place s (s.setNode place node) := by
  refine ⟨fun other away => ?_, rfl⟩
  cases other with
  | nil => rfl
  | cons name rest => rw [node?_setNode _ _ _ _ (by simp), if_neg away]

theorem node?_setNode_self {node : Node} (inner : place ≠ []) :
    (s.setNode place node).node? place = some node := by
  rw [node?_setNode _ _ _ _ inner, if_pos rfl]

/-! ### Opening -/

theorem overwrite_end (content : Array UInt8) (bytes : List UInt8) :
    overwrite content content.size bytes = content ++ bytes := by
  simp [overwrite]

theorem writeAt_end {appending : Bool} {position : Nat} (inner : place ≠ [])
    (file : s.node? place = some (.file content))
    (atEnd : appending = true ∨ position = content.size) (bytes : List UInt8) : ∃ next s',
      s.writeAt place appending position bytes = .ok (next, s') ∧ SameBut place s s' ∧
        s'.node? place = some (.file (content ++ bytes)) ∧
          (appending = true ∨ next = (content ++ bytes).size) := by
  by_cases none : bytes = []
  · subst none
    rw [show content ++ ([] : List UInt8) = content by simp]
    exact ⟨position, s, by simp [writeAt, file], .refl, file, atEnd⟩
  · have start : (if appending = true then content.size else position) = content.size := by
      rcases atEnd with appends | rfl <;> simp_all
    have ending : content.size + bytes.length = (content ++ bytes).size := by
      simp [← Array.length_toList]
    refine ⟨content.size + bytes.length, s.setNode place (.file (content ++ bytes)), ?_,
      sameBut_setNode, node?_setNode_self inner, .inr ending⟩
    simp [writeAt, file, none, start, overwrite_end]

end Storage

namespace Stream

variable {stream : Stream} {s : Storage} {path : String} {place : Place} {content : Array UInt8}
  {old : Option (Array UInt8)} {flags : OpenFlags}

/-- The stream writes to the file at the place, behind all that the file holds. -/
structure Continues (stream : Stream) (s : Storage) (place : Place) (content : Array UInt8) :
    Prop where
  inner : place ≠ []
  sound : stream.failed = false
  file : s.node? place = some (.file content)
  channel : ∃ appending position, stream.channel = .file place appending position ∧
    (appending = true ∨ position = content.size)

theorem Continues.write (h : stream.Continues s place content) (bytes : List UInt8) :
    ∃ stream' s', stream.write s bytes = (.ok bytes.length, stream', s') ∧
      stream'.Continues s' place (content ++ bytes) ∧ Storage.SameBut place s s' := by
  obtain ⟨inner, sound, file, appending, position, channel, atEnd⟩ := h
  obtain ⟨next, s', written, same, file', atEnd'⟩ := Storage.writeAt_end inner file atEnd bytes
  refine ⟨{ stream with channel := .file place appending next }, s', ?_,
    ⟨inner, sound, file', appending, next, rfl, atEnd'⟩, same⟩
  simp [Stream.write, channel, written]

end Stream
end ModuleIR
