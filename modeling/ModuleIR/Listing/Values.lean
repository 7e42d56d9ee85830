import ModuleIR.Arena.Scope
import ModuleIR.Listing.Piece
import ModuleIR.Text.Escape
import ModuleIR.WideInt.Numeral

set_option autoImplicit false

/-!
# Listings of operands and instructions

An operand is printed as a literal, as `@` and a global name, or as `%` and a local name. An entity
without a name is printed by number: its position among the unnamed globals and functions of the
module, or among the unnamed arguments, blocks and instructions of the function.
-/
namespace ModuleIR

/-- The unnamed entities around what is printed, in the order of their numbers. -/
structure Slots where
  globals : List ValueRef := []
  locals : List Symbol := []
  deriving DecidableEq, Repr, Inhabited

namespace Context

def unnamedValues (ctx : Context) : List ValueRef → Checked (List ValueRef)
  | [] => return []
  | v :: rest => do
    let name ← ctx.valueName v
    let others ← ctx.unnamedValues rest
    return if name.isNone then v :: others else others

def globalSlots (ctx : Context) (m : ModuleRef) : Checked (List ValueRef) := do
  let record ← ctx.module m
  ctx.unnamedValues (record.globals.map (·.value) ++ record.functions.map (·.value))

def instructionSlots (ctx : Context) : List InstructionRef → Checked (List Symbol)
  | [] => return []
  | i :: rest => do
    let record ← ctx.value i.value
    let isVoid := (← ctx.shape record.type).isVoid
    let others ← ctx.instructionSlots rest
    return if record.name.isNone && !isVoid then .value i.value :: others else others

def blockSlots (ctx : Context) : List BlockRef → Checked (List Symbol)
  | [] => return []
  | b :: rest => do
    let record ← ctx.block b
    let inside ← ctx.instructionSlots record.instructions
    let others ← ctx.blockSlots rest
    return (if record.name.isNone then [.block b] else []) ++ inside ++ others

/-- The unnamed arguments, blocks and instructions of a function, in the order of definition. -/
def localSlots (ctx : Context) (f : FunctionRef) : Checked (List Symbol) := do
  let record ← ctx.function f
  let args ← ctx.unnamedValues (record.args.map (·.value))
  return args.map .value ++ (← ctx.blockSlots record.blocks)

end Context

/-- What stands for an entity behind its mark: its name, or its number when it has none. -/
def Listing.referent (name : Option String) (slot : Option Nat) : Piece :=
  match name, slot with
  | some name, _ => .text (Text.ident name)
  | none, some number => .text (toString number)
  | none, none => .unresolved

def integerText (n : WideInt) : String :=
  if n.bits = 1 then (if n.isZero then "false" else "true") else n.decimal

def bytesText (bytes : List UInt8) : String :=
  if bytes.all (· == 0) then "zeroinitializer" else "c\"" ++ Text.quotedBytes bytes ++ "\""

namespace Listing

def refWithin (ctx : Context) (slots : Slots) : Nat → ValueRef → Listing
  | 0, _ => [.fault (.inconsistent "getelementptr operand behind its user")]
  | depth + 1, v =>
    reading (ctx.value v) fun record =>
      match record.kind with
      | .int n => [.text (integerText n)]
      | .bytes bytes => [.text (bytesText bytes)]
      | .elementPtr e =>
        let operand := fun u =>
          reading (ctx.describeTypeOf u) fun type =>
            .text (type ++ " ") :: refWithin ctx slots depth u
        reading (ctx.describeType e.sourceType) fun source =>
          .text ("getelementptr " ++ (if e.inBounds then "inbounds " else "") ++ "(" ++ source ++
              ", ") ::
            operand e.base ++ (e.indices.flatMap fun i => .text ", " :: operand i) ++ [.text ")"]
      | .global _ | .function _ =>
        [.text "@", referent record.name (slots.globals.idxOf? v)]
      | .argument _ | .instruction _ =>
        [.text "%", referent record.name (slots.locals.idxOf? (.value v))]
      | .erased => [.fault (.inconsistent "erased values are rejected by the context")]

/-- A value without its type. The operands of pointer arithmetic stand before it in the arena, so
its position bounds the nesting. -/
def ref (ctx : Context) (slots : Slots) (v : ValueRef) : Listing :=
  refWithin ctx slots (v.index + 1) v

def operand (ctx : Context) (slots : Slots) (v : ValueRef) : Listing :=
  reading (ctx.describeTypeOf v) fun type => .text (type ++ " ") :: ref ctx slots v

def blockRef (ctx : Context) (slots : Slots) (b : BlockRef) : Listing :=
  .text "%" :: reading (ctx.block b) fun record =>
    [referent record.name (slots.locals.idxOf? (.block b))]

def conventionText (cc : CallingConv) : String := if cc = .c then "" else cc.text ++ " "

def linkageText (l : Linkage) : String := if l.keyword = "" then "" else l.keyword ++ " "

/-- The type printed for a call: that of the result, or of the whole callee when it is variadic. -/
def calledTypeText (ctx : Context) (callee : ValueRef) (result : TypeRef) : Checked String := do
  match ← ctx.calleeSignature? callee with
  | some signature =>
    let (_, _, variadic) ← ctx.signature signature
    if variadic then ctx.describeTypeOf callee else ctx.describeType result
  | none => ctx.describeType result

def operation (ctx : Context) (slots : Slots) (type : TypeRef) : Operation → Listing
  | .call callee args convention =>
    .text ("call " ++ conventionText convention) ::
      reading (calledTypeText ctx callee type) fun called =>
        .text (called ++ " ") :: ref ctx slots callee ++
          .text "(" :: separated ", " (args.map (operand ctx slots)) ++ [.text ")"]
  | .ret none => [.text "ret void"]
  | .ret (some value) => .text "ret " :: operand ctx slots value
  | .br target => .text "br label " :: blockRef ctx slots target
  | .condBr cond ifTrue ifFalse =>
    .text "br " :: operand ctx slots cond ++
      .text ", label " :: blockRef ctx slots ifTrue ++
      .text ", label " :: blockRef ctx slots ifFalse

def instruction (ctx : Context) (slots : Slots) (i : InstructionRef) : Listing :=
  reading (ctx.value i.value) fun record =>
    reading (ctx.shape record.type) fun shape =>
      (if shape.isVoid then [] else ref ctx slots i.value ++ [.text " = "]) ++
        reading (ctx.operation i) (operation ctx slots record.type)

end Listing
end ModuleIR
