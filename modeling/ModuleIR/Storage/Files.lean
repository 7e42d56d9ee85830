import ModuleIR.Arena.Table
import ModuleIR.Attribute.OpenFlags

set_option autoImplicit false

/-!
# Files and standard output

A tree of directories, files and two devices, with the working directory of a run, and what was
written to standard output. Paths are resolved component by component; the order in which the faults
of a path are found is that of the resolution.
-/
namespace ModuleIR

inductive PathFault where
  | missing
  | alreadyExists
  | notDirectory
  | isDirectory
  | nameTooLong
  | nulByte
  deriving DecidableEq, Repr, Inhabited

def PathFault.message : PathFault → String
  | missing => "No such file or directory (os error 2)"
  | alreadyExists => "File exists (os error 17)"
  | notDirectory => "Not a directory (os error 20)"
  | isDirectory => "Is a directory (os error 21)"
  | nameTooLong => "File name too long (os error 36)"
  | nulByte => "file name contained an unexpected NUL byte"

inductive WriteFault where
  | noSpace
  | closedStream (path : String)
  /-- A bounded buffer has taken all it can. -/
  | bufferFull
  /-- An attempt took no byte of those that are left. -/
  | nothingTaken
  deriving DecidableEq, Repr, Inhabited

def WriteFault.message : WriteFault → String
  | noSpace => "No space left on device (os error 28)"
  | closedStream path => s!"write to closed stream '{path}'"
  | bufferFull => "sink full"
  | nothingTaken => "failed to write whole buffer"

inductive Node where
  | directory
  | file (content : Array UInt8)
  /-- A device on which no byte fits. -/
  | fullDevice
  /-- A device that takes every byte and keeps none. -/
  | nullDevice
  deriving DecidableEq, Repr, Inhabited

/-- A place in the tree: the names from the root to it. -/
abbrev Place : Type := List String

def workingDirectory : Place := ["work"]

structure Storage where
  nodes : Table Place Node
  standardOutput : Array UInt8 := #[]
  deriving DecidableEq, Repr

/-- What a path leads to, before its last name is looked up. -/
inductive Destination where
  /-- The path ends in a directory that exists: the root, or a last part `.` or `..`. -/
  | directory (place : Place)
  /-- A name in a directory; `slash` when the path ends in a slash. -/
  | entry (parent : Place) (name : String) (slash : Bool)
  deriving DecidableEq, Repr, Inhabited

namespace Storage

def initial : Storage where
  nodes := ⟨[(workingDirectory, .directory), (["dev"], .directory),
    (["dev", "full"], .fullDevice), (["dev", "null"], .nullDevice)]⟩

instance : Inhabited Storage := ⟨initial⟩

def node? (s : Storage) (place : Place) : Option Node :=
  if place.isEmpty then some .directory else s.nodes.find? place

def setNode (s : Storage) (place : Place) (node : Node) : Storage :=
  { s with nodes := s.nodes.insert place node }

theorem node?_setNode (s : Storage) (place other : Place) (node : Node) (h : other ≠ []) :
    (s.setNode place node).node? other = if other = place then some node else s.node? other := by
  have he : other.isEmpty = false := by simpa using h
  simp only [node?, he, setNode]
  exact Table.find?_insert s.nodes other place node

def maxName : Nat := 255

/-- Length from which on a path is too long, in bytes. -/
def maxPath : Nat := 4096

def step (s : Storage) (place : Place) (name : String) : Except PathFault Place :=
  match s.node? place with
  | some .directory =>
    if name = "." then .ok place
    else if name = ".." then .ok place.dropLast
    else if maxName < name.utf8ByteSize then .error .nameTooLong
    else match s.node? (place ++ [name]) with
      | some _ => .ok (place ++ [name])
      | none => .error .missing
  | _ => .error .notDirectory

def walk (s : Storage) (place : Place) (names : List String) : Except PathFault Place :=
  names.foldlM s.step place

def pathNames (path : String) : List String :=
  ((Text.splitAt '/' path.toList).filter (!·.isEmpty)).map String.ofList

def pathStart (path : String) : Place :=
  if path.toList.head? = some '/' then [] else workingDirectory

def resolve (s : Storage) (path : String) : Except PathFault Destination := do
  if path.toList.contains '\x00' then throw .nulByte
  if path.isEmpty then throw .missing
  if maxPath ≤ path.utf8ByteSize then throw .nameTooLong
  match (pathNames path).reverse with
  | [] => return .directory []
  | last :: before =>
    let parent ← s.walk (pathStart path) before.reverse
    if s.node? parent ≠ some .directory then throw .notDirectory
    if last = "." || last = ".." then return .directory (← s.step parent last)
    else return .entry parent last (path.toList.getLast? == some '/')

/-- The place for writing at a path, and the storage with the file made or truncated. -/
def openForWriting (s : Storage) (path : String) (flags : OpenFlags) :
    Except PathFault (Place × Storage) := do
  let exclusive := flags.contains .excl
  match ← s.resolve path with
  | .directory _ => throw (if exclusive then .alreadyExists else .isDirectory)
  | .entry parent name slash =>
    if slash then throw .isDirectory
    if maxName < name.utf8ByteSize then throw .nameTooLong
    let place := parent ++ [name]
    match s.node? place with
    | none => return (place, s.setNode place (.file #[]))
    | some node =>
      if exclusive then throw .alreadyExists
      match node with
      | .directory => throw .isDirectory
      | .file _ =>
        return (place, if flags.contains .append then s else s.setNode place (.file #[]))
      | _ => return (place, s)

/-- Bytes written over a content from a position on; a gap is filled with zero bytes. -/
def overwrite (content : Array UInt8) (position : Nat) (bytes : List UInt8) : Array UInt8 :=
  let before := content.extract 0 position
  let gap := Array.replicate (position - content.size) 0
  before ++ gap ++ bytes ++ content.extract (position + bytes.length) content.size

def writeAt (s : Storage) (place : Place) (appending : Bool) (position : Nat)
    (bytes : List UInt8) : Except WriteFault (Nat × Storage) :=
  match s.node? place with
  | some (.file content) =>
    if bytes.isEmpty then .ok (position, s)
    else
      let start := if appending then content.size else position
      .ok (start + bytes.length, s.setNode place (.file (overwrite content start bytes)))
  | some .fullDevice => .error .noSpace
  | _ => .ok (position, s)

def put (s : Storage) (path : String) (content : List UInt8) : Storage :=
  match s.openForWriting path .none with
  | .ok (place, opened) =>
    match opened.writeAt place false 0 content with
    | .ok (_, written) => written
    | .error _ => opened
  | .error _ => s

def makeDirectories (s : Storage) (place : Place) : List String → Storage
  | [] => s
  | name :: rest =>
    match s.step place name with
    | .ok next => s.makeDirectories next rest
    | .error .missing =>
      let inner := place ++ [name]
      (s.setNode inner .directory).makeDirectories inner rest
    | .error _ => s

def makeDirectory (s : Storage) (path : String) : Storage :=
  s.makeDirectories (pathStart path) (pathNames path)

def get? (s : Storage) (path : String) : Option (List UInt8) :=
  match s.resolve path with
  | .ok (.entry parent name slash) =>
    if maxName < name.utf8ByteSize then none
    else match s.node? (parent ++ [name]) with
      | some (.file content) => if slash then none else some content.toList
      | some .nullDevice => if slash then none else some []
      | _ => none
  | _ => none

def getText? (s : Storage) (path : String) : Option String :=
  (s.get? path).bind fun bytes => String.fromUTF8? ⟨bytes.toArray⟩

end Storage
end ModuleIR
