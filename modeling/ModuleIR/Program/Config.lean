import ModuleIR.Storage.Files
import ModuleIR.Text.Json

set_option autoImplicit false

/-!
# Configuration files

Settings of a run in JSON: an object with known members, all optional, or an array of their values
in order. Unknown members are ignored and known ones may occur once.
-/
namespace ModuleIR

inductive FlagName where
  | excl
  | append
  | text
  | rw
  deriving DecidableEq, Repr, Inhabited

namespace FlagName

def all : List FlagName := [excl, append, text, rw]

def name : FlagName → String
  | excl => "excl"
  | append => "append"
  | text => "text"
  | rw => "rw"

def flag : FlagName → OpenFlags
  | excl => .excl
  | append => .append
  | text => .text
  | rw => .rw

def ofName? (name : String) : Option FlagName := all.find? (·.name == name)

end FlagName

structure Config where
  /-- Name of the module; without one it is the name of the sample. -/
  moduleId : Option String := none
  banner : String := ""
  openFlags : List FlagName := []
  /-- Whether the module is checked before it is printed. -/
  verify : Bool := true
  deriving DecidableEq, Repr, Inhabited

inductive ConfigError where
  | reading (path : String)
  | parsing (path : String)
  deriving DecidableEq, Repr, Inhabited

def ConfigError.message : ConfigError → String
  | reading path => s!"reading config '{path}'"
  | parsing path => s!"parsing config '{path}'"

namespace Config

open Text

def flags (c : Config) : OpenFlags :=
  c.openFlags.foldl (fun flags name => flags.union name.flag) .none

/-- The members of a configuration, in the order of the array form. -/
inductive Field where
  | moduleId
  | banner
  | openFlags
  | verify
  deriving DecidableEq, Repr, Inhabited

namespace Field

def all : List Field := [moduleId, banner, openFlags, verify]

def name : Field → String
  | moduleId => "module_id"
  | banner => "banner"
  | openFlags => "open_flags"
  | verify => "verify"

def ofName? (name : String) : Option Field := all.find? (·.name == name)

end Field

def readFlag? : Json → Option FlagName
  | .string (some name) => FlagName.ofName? name
  | .object [(some name, .null)] => FlagName.ofName? name
  | _ => none

def setField (c : Config) (field : Field) (value : Json) : Option Config :=
  match field, value with
  | .moduleId, .null => some { c with moduleId := none }
  | .moduleId, .string (some name) => some { c with moduleId := some name }
  | .banner, .string (some banner) => some { c with banner }
  | .openFlags, .array flags => (flags.mapM readFlag?).map fun openFlags => { c with openFlags }
  | .verify, .bool verify => some { c with verify }
  | _, _ => none

def setMembers (c : Config) (seen : List Field) : List (Option String × Json) → Option Config
  | [] => some c
  | (none, _) :: _ => none
  | (some key, value) :: rest =>
    match Field.ofName? key with
    | none => c.setMembers seen rest
    | some field =>
      if seen.contains field then none
      else do (← c.setField field value).setMembers (field :: seen) rest

def setElements (c : Config) : List Field → List Json → Option Config
  | _, [] => some c
  | [], _ :: _ => none
  | field :: fields, value :: values => do (← c.setField field value).setElements fields values

def ofJson? : Json → Option Config
  | .object members => ({} : Config).setMembers [] members
  | .array values => ({} : Config).setElements Field.all values
  | _ => none

def read? (text : String) : Option Config := (Json.read? text).bind ofJson?

def load (storage : Storage) (path : String) : Except ConfigError Config :=
  match storage.getText? path with
  | none => .error (.reading path)
  | some text =>
    match read? text with
    | none => .error (.parsing path)
    | some config => .ok config

end Config
end ModuleIR
