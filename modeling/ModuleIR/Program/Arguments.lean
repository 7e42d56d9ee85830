import ModuleIR.Program.Sample

set_option autoImplicit false

/-!
# Command line arguments

The commands are `sample`, which prints a sample module, `list`, and `help`, which may name one
command to explain. Options are long (`--name`, with a value behind it or after `=`) or short, and
short ones can be joined; after `--` nothing is an option. Each option may be given once. Reading
stops at the first mistake.
-/
namespace ModuleIR

structure SampleArguments where
  sample : Sample
  /-- Where to write; `-` is standard output. -/
  output : String := "-"
  moduleId : Option String := none
  banner : Option String := none
  excl : Bool := false
  append : Bool := false
  config : Option String := none
  noVerify : Bool := false
  deriving DecidableEq, Repr, Inhabited

inductive Invocation where
  | list
  | sample (arguments : SampleArguments)
  | version
  | help
  | misuse
  deriving DecidableEq, Repr, Inhabited

inductive Flag where
  | verbose
  | help
  | version
  | output
  | moduleId
  | banner
  | excl
  | append
  | config
  | noVerify
  deriving DecidableEq, Repr, Inhabited

namespace Flag

def longName : Flag → String
  | verbose => "verbose"
  | help => "help"
  | version => "version"
  | output => "output"
  | moduleId => "module-id"
  | banner => "banner"
  | excl => "excl"
  | append => "append"
  | config => "config"
  | noVerify => "no-verify"

def shortName? : Flag → Option Char
  | verbose => some 'v'
  | help => some 'h'
  | version => some 'V'
  | output => some 'o'
  | config => some 'c'
  | _ => none

def takesValue : Flag → Bool
  | output | moduleId | banner | config => true
  | _ => false

def takesPath : Flag → Bool
  | output | config => true
  | _ => false

def ofProgram : List Flag := [verbose, help, version]

def ofList : List Flag := [verbose, help]

def ofSample : List Flag :=
  [verbose, help, output, moduleId, banner, excl, append, config, noVerify]

def find? (known : List Flag) (long : String) : Option Flag := known.find? (·.longName == long)

def findShort? (known : List Flag) (short : Char) : Option Flag :=
  known.find? (·.shortName? == some short)

end Flag

structure Reading where
  flags : List Flag := []
  values : List (Flag × String) := []
  positional : List String := []
  deriving DecidableEq, Repr, Inhabited

inductive Stop where
  | misuse
  | help
  | version
  deriving DecidableEq, Repr, Inhabited

namespace Reading

def note (r : Reading) (flag : Flag) : Except Stop Reading :=
  match flag with
  | .help => .error .help
  | .version => .error .version
  | _ => if r.flags.contains flag then .error .misuse else .ok { r with flags := flag :: r.flags }

def noteValue (r : Reading) (flag : Flag) (value : String) : Except Stop Reading :=
  if r.flags.contains flag || (flag.takesPath && value.isEmpty) then .error .misuse
  else .ok { r with flags := flag :: r.flags, values := (flag, value) :: r.values }

/-- Notes a positional argument; there is room for `limit` of them, and each names a sample. -/
def notePositional (r : Reading) (limit : Nat) (value : String) : Except Stop Reading :=
  if limit ≤ r.positional.length || (Sample.ofName? value).isNone then .error .misuse
  else .ok { r with positional := r.positional ++ [value] }

/-- Whether an argument is an option when a value is expected; a lone minus is none. -/
def looksLikeOption (argument : List Char) : Bool :=
  match argument with
  | '-' :: _ :: _ => true
  | _ => false

/-- Joined short options. The option is pending when it takes a value and none is joined to it. -/
def shortFlags (known : List Flag) : Reading → List Char → Except Stop (Reading × Option Flag)
  | r, [] => .ok (r, none)
  | r, c :: rest =>
    match Flag.findShort? known c with
    | none => .error .misuse
    | some flag =>
      if flag.takesValue then
        match rest with
        | [] => .ok (r, some flag)
        | '=' :: value => (r.noteValue flag (String.ofList value)).map (·, none)
        | value => (r.noteValue flag (String.ofList value)).map (·, none)
      else do shortFlags known (← r.note flag) rest

def longFlag (known : List Flag) (r : Reading) (argument : List Char) :
    Except Stop (Reading × Option Flag) := do
  let name := String.ofList (argument.takeWhile (· ≠ '='))
  match Flag.find? known name, argument.dropWhile (· ≠ '=') with
  | none, _ => throw .misuse
  | some flag, [] =>
    if flag.takesValue then return (r, some flag) else return (← r.note flag, none)
  | some flag, _ :: value =>
    if flag.takesValue then return (← r.noteValue flag (String.ofList value), none)
    else throw .misuse

def arguments (known : List Flag) (limit : Nat) :
    Reading → Option Flag → List String → Except Stop Reading
  | r, none, [] => .ok r
  | _, some _, [] => .error .misuse
  | r, some flag, argument :: rest =>
    if looksLikeOption argument.toList then .error .misuse
    else do arguments known limit (← r.noteValue flag argument) none rest
  | r, none, argument :: rest =>
    match argument.toList with
    | ['-', '-'] => rest.foldlM (fun r value => r.notePositional limit value) r
    | '-' :: '-' :: long => do
      let (next, pending) ← longFlag known r long
      arguments known limit next pending rest
    | '-' :: c :: more => do
      let (next, pending) ← shortFlags known r (c :: more)
      arguments known limit next pending rest
    | _ => do arguments known limit (← r.notePositional limit argument) none rest

def value? (r : Reading) (flag : Flag) : Option String := r.values.lookup flag

def toSample? (r : Reading) : Option SampleArguments := do
  let sample ← Sample.ofName? (← r.positional.head?)
  return {
    sample
    output := (r.value? .output).getD "-"
    moduleId := r.value? .moduleId
    banner := r.value? .banner
    excl := r.flags.contains .excl
    append := r.flags.contains .append
    config := r.value? .config
    noVerify := r.flags.contains .noVerify }

end Reading

namespace Invocation

def commands : List String := ["sample", "list", "help"]

def ofStop : Stop → Invocation
  | .misuse => misuse
  | .help => help
  | .version => version

def ofCommand (command : String) (rest : List String) : Invocation :=
  if command = "list" then
    match Reading.arguments Flag.ofList 0 {} none rest with
    | .ok _ => list
    | .error stop => ofStop stop
  else if command = "sample" then
    match Reading.arguments Flag.ofSample 1 {} none rest with
    | .ok reading =>
      match reading.toSample? with
      | some arguments => sample arguments
      | none => misuse
    | .error stop => ofStop stop
  else if command = "help" then
    match rest with
    | [] => help
    | [topic] => if commands.contains topic then help else misuse
    | _ => misuse
  else misuse

def ofArguments : Reading → List String → Invocation
  | _, [] => misuse
  | r, argument :: rest =>
    let continueWith := fun (next : Except Stop (Reading × Option Flag)) =>
      match next with
      | .ok (next, _) => ofArguments next rest
      | .error stop => ofStop stop
    match argument.toList with
    | ['-', '-'] => misuse
    | '-' :: '-' :: long => continueWith (Reading.longFlag Flag.ofProgram r long)
    | '-' :: c :: more => continueWith (Reading.shortFlags Flag.ofProgram r (c :: more))
    | _ => ofCommand argument rest

def read (arguments : List String) : Invocation := ofArguments {} arguments

end Invocation
end ModuleIR
