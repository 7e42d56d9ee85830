import ModuleIR.Build.Cursor
import ModuleIR.Build.Modules

set_option autoImplicit false

/-!
# Sample modules

Three small modules that show the interface at work.
-/
namespace ModuleIR

inductive Sample where
  /-- The function `main` calls `top_level_code`, which prints a greeting with `puts`. -/
  | hello
  /-- A function that returns 42. -/
  | answer
  | declare
  deriving DecidableEq, Repr, Inhabited

namespace Sample

def all : List Sample := [hello, answer, declare]

def name : Sample → String
  | hello => "hello"
  | answer => "answer"
  | declare => "declare"

def ofName? (name : String) : Option Sample := all.find? (·.name == name)

def declarePuts (m : ModuleRef) : Build FunctionRef := do
  let byte ← Build.integerType 8
  let bytePtr ← Build.pointerType byte.type .generic
  let word ← Build.integerType 32
  let signature ← Build.functionType word.type [bytePtr.type] false
  Build.createFunction signature .external "puts" m

def buildHello (m : ModuleRef) : Build Unit := do
  let puts ← declarePuts m
  let void ← Build.voidType
  let word ← Build.integerType 32
  let greeter ← Build.functionType void [] false
  let topLevel ← Build.createFunction greeter .internal "top_level_code" m
  let inTopLevel := Cursor.atEndOf (← Build.createBlock "entry" (some topLevel) none)
  let greeting ← Build.globalString m "Hello, world!" ".str"
  let _ ← inTopLevel.call puts.value [greeting.value] ""
  let _ ← inTopLevel.retVoid
  let starter ← Build.functionType word.type [] false
  let main ← Build.createFunction starter .external "main" m
  let inMain := Cursor.atEndOf (← Build.createBlock "entry" (some main) none)
  let _ ← inMain.call topLevel.value [] ""
  let zero ← Build.constantSigned word 0
  let _ ← inMain.ret zero.value

def buildAnswer (m : ModuleRef) : Build (Except LiteralError Unit) := do
  let word ← Build.integerType 32
  let signature ← Build.functionType word.type [] false
  let f ← Build.createFunction signature .external "answer" m
  let cursor := Cursor.atEndOf (← Build.createBlock "entry" (some f) none)
  match ← Build.literal 32 "42" 10 with
  | .error e => return .error e
  | .ok number =>
    let value ← Build.constantInt number
    let _ ← cursor.ret value.value
    return .ok ()

def buildDeclare (m : ModuleRef) : Build Unit := do
  let _ ← declarePuts m
  let byte ← Build.integerType 8
  let bytePtr ← Build.pointerType byte.type .generic
  let word ← Build.integerType 32
  let signature ← Build.functionType word.type [bytePtr.type] true
  let _ ← Build.createFunction signature .external "printf" m
  let _ ← Build.createGlobal m
    { type := word.type, name := "errno", threadLocal := .initialExec }

def build (s : Sample) (moduleId : String) : Build (Except LiteralError ModuleRef) := do
  Build.emit (.sampleStarted s.name)
  let m ← Build.createModule moduleId
  match s with
  | hello => do
    buildHello m
    return .ok m
  | answer => return (← buildAnswer m).map fun _ => m
  | declare => do
    buildDeclare m
    return .ok m

end Sample
end ModuleIR
