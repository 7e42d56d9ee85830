import ModuleIR.Listing.Values

set_option autoImplicit false

/-!
# Listings of modules

The text of a module is its comment line, its globals one a line after a blank line, and its
functions, each after a blank line. A global, a function, an argument or an instruction can also be
listed on its own.
-/
namespace ModuleIR
namespace Listing

def globalLine (ctx : Context) (slots : Slots) (g : GlobalRef) : Listing :=
  ref ctx slots g.value ++ reading (ctx.global g) fun record =>
    let external := record.initializer.isNone && record.linkage == .external
    let threadLocal := match record.threadLocal.keyword? with
      | some keyword => keyword ++ " "
      | none => ""
    let space :=
      if record.space = .generic then "" else "addrspace(" ++ toString record.space.code ++ ") "
    reading (ctx.describeType record.valueType) fun type =>
      .text (" = " ++ (if external then "external " else "") ++ linkageText record.linkage ++
          threadLocal ++ space ++
          (if record.externallyInitialized then "externally_initialized " else "") ++
          (if record.isConstant then "constant " else "global ") ++ type) ::
        match record.initializer with
        | some init => .text " " :: ref ctx slots init.value
        | none => []

def instructionLines (ctx : Context) (slots : Slots) (is : List InstructionRef) : Listing :=
  is.flatMap fun i => .text "  " :: instruction ctx slots i ++ [.text "\n"]

/-- The line that starts a block: its name, or its number in a comment. The first block of a
function needs none when it has no name. -/
def labelLine (slots : Slots) (first : Bool) (b : BlockRef) (name : Option String) : Listing :=
  match name with
  | some name => [.text (Text.ident name ++ ":\n")]
  | none =>
    if first then []
    else
      [.text ("; <label>:" ++ toString ((slots.locals.idxOf? (.block b)).getD 0) ++ "\n")]

def blockLines (ctx : Context) (slots : Slots) (first : Bool) (b : BlockRef) : Listing :=
  (if first then [] else [.text "\n"]) ++ reading (ctx.block b) fun record =>
    labelLine slots first b record.name ++ instructionLines ctx slots record.instructions

def bodyLines (ctx : Context) (slots : Slots) : List BlockRef → Listing
  | [] => []
  | b :: rest => blockLines ctx slots true b ++ rest.flatMap (blockLines ctx slots false)

/-- An argument in the header of a function; a declaration gives its type only. -/
def parameter (ctx : Context) (slots : Slots) (declared : Bool) (a : ArgumentRef) : Listing :=
  if declared then reading (ctx.describeTypeOf a.value) fun type => [.text type]
  else operand ctx slots a.value

def functionLines (ctx : Context) (globals : List ValueRef) (f : FunctionRef) : Listing :=
  reading (ctx.localSlots f) fun locals =>
    let slots : Slots := { globals, locals }
    reading (ctx.function f) fun record =>
      reading (ctx.signature record.signature) fun (result, _, variadic) =>
        reading (ctx.describeType result) fun type =>
          let declared := record.blocks.isEmpty
          let params := record.args.map (parameter ctx slots declared) ++
            (if variadic then [[.text "..."]] else [])
          .text ((if declared then "declare " else "define ") ++ linkageText record.linkage ++
              conventionText record.convention ++ type ++ " ") ::
            ref ctx slots f.value ++ .text "(" :: separated ", " params ++
            if declared then [.text ")\n"]
            else .text ") \x7b\n" :: bodyLines ctx slots record.blocks ++ [.text "\x7d\n"]

def function (ctx : Context) (f : FunctionRef) : Listing :=
  reading (do ctx.globalSlots (← ctx.function f).module) fun globals => functionLines ctx globals f

def global (ctx : Context) (g : GlobalRef) : Listing :=
  reading (do ctx.globalSlots (← ctx.global g).module) fun globals => globalLine ctx { globals } g

def module (ctx : Context) (m : ModuleRef) : Listing :=
  reading (ctx.globalSlots m) fun globals =>
    reading (ctx.module m) fun record =>
      .text ("; ModuleID = '" ++ record.name ++ "'\n") ::
        (if record.globals.isEmpty then [] else [.text "\n"]) ++
        (record.globals.flatMap fun g => globalLine ctx { globals } g ++ [.text "\n"]) ++
        record.functions.flatMap fun f => .text "\n" :: functionLines ctx globals f

def slotsAround (ctx : Context) (b : BlockRef) : Checked Slots := do
  match (← ctx.block b).parent with
  | none => return {}
  | some f =>
    let globals ← ctx.globalSlots (← ctx.function f).module
    return { globals, locals := ← ctx.localSlots f }

/-- A value on its own: the definition of a global, function or instruction, and type and reference
of any other value. -/
def value (ctx : Context) (v : ValueRef) : Listing :=
  reading (ctx.value v) fun record =>
    match record.kind with
    | .global _ => global ctx ⟨v⟩
    | .function _ => function ctx ⟨v⟩
    | .instruction i => reading (slotsAround ctx i.parent) fun slots => instruction ctx slots ⟨v⟩
    | .argument a =>
      reading (do
        let globals ← ctx.globalSlots (← ctx.function a.parent).module
        return ({ globals, locals := ← ctx.localSlots a.parent } : Slots)) fun slots =>
          operand ctx slots v
    | _ => operand ctx {} v

end Listing

namespace Context

def moduleText (ctx : Context) (m : ModuleRef) : Checked String := (Listing.module ctx m).render

def functionText (ctx : Context) (f : FunctionRef) : Checked String :=
  (Listing.function ctx f).render

def valueText (ctx : Context) (v : ValueRef) : Checked String := (Listing.value ctx v).render

end Context
end ModuleIR
