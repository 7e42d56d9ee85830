import ModuleIR.Proofs.Listing.Faults
import ModuleIR.Proofs.Listing.Lines
import ModuleIR.Proofs.World.Reachable

set_option autoImplicit false

/-!
# Texts of entities on their own

An entity that is listed on its own is numbered from its own place: a global or a function from the
module that it says it belongs to, an instruction from the parent of its block. In a well-formed
context these places are where the listing of the module finds the entity, so the numbers agree, and
the text of the module is put together from the texts of its entities.
-/
namespace ModuleIR

namespace Listing

variable {ctx : Context}

theorem render_flatMap_eq_ok {α : Type} {next : α → Listing} (shape : String → String)
    (holds : α → String → Prop) {as : List α} {text : String}
    (each : ∀ a ∈ as, ∀ t, (next a).render = .ok t → ∃ part, holds a part ∧ t = shape part)
    (done : render (as.flatMap next) = .ok text) :
    ∃ parts, List.Forall₂ holds as parts ∧ text = String.join (parts.map shape) := by
  induction as generalizing text with
  | nil => exact ⟨[], .nil, (Except.ok.inj done).symm⟩
  | cons a rest ih =>
    obtain ⟨first, others, front, back, rfl⟩ := render_append_eq_ok.mp done
    obtain ⟨part, held, rfl⟩ := each a List.mem_cons_self first front
    obtain ⟨parts, held', rfl⟩ := ih (fun b mem => each b (List.mem_cons_of_mem _ mem)) back
    exact ⟨part :: parts, .cons held held', String.join_cons.symm⟩

theorem render_text {text : String} : render [.text text] = .ok text := by
  rw [render_cons]
  exact congrArg Except.ok String.append_empty

variable (wf : ctx.WellFormed)
include wf

theorem value_global {m : ModuleRef} {mr : ModuleRecord} {g : GlobalRef} {globals : List ValueRef}
    (live : ctx.module m = .ok mr) (listed : g ∈ mr.globals)
    (numbered : ctx.globalSlots m = .ok globals) :
    value ctx g.value = globalLine ctx { globals } g := by
  obtain ⟨gr, known, rfl⟩ := wf.module_global live listed
  obtain ⟨r, read, kind⟩ := Context.global_eq_ok.mp known
  have around : (do ctx.globalSlots (← ctx.global g).module) = .ok globals := by
    rw [known]
    exact numbered
  simp only [value, read, kind, reading, global, around]

omit wf in
theorem value_function {f : FunctionRef} {fr : FunctionRecord} (known : ctx.function f = .ok fr) :
    value ctx f.value = function ctx f := by
  obtain ⟨r, read, kind⟩ := Context.function_eq_ok.mp known
  simp only [value, read, kind, reading]

theorem function_eq_functionLines {m : ModuleRef} {mr : ModuleRecord} {f : FunctionRef}
    {globals : List ValueRef} (live : ctx.module m = .ok mr) (listed : f ∈ mr.functions)
    (numbered : ctx.globalSlots m = .ok globals) :
    function ctx f = functionLines ctx globals f := by
  obtain ⟨fr, known, rfl⟩ := wf.module_function live listed
  have around : (do ctx.globalSlots (← ctx.function f).module) = .ok globals := by
    rw [known]
    exact numbered
  simp only [function, around, reading]

theorem value_instruction {f : FunctionRef} {fr : FunctionRecord} {b : BlockRef} {br : BlockRecord}
    {i : InstructionRef} {globals : List ValueRef} {locals : List Symbol}
    (known : ctx.function f = .ok fr) (inside : b ∈ fr.blocks) (read : ctx.block b = .ok br)
    (placed : i ∈ br.instructions) (numbered : ctx.globalSlots fr.module = .ok globals)
    (slotted : ctx.localSlots f = .ok locals) :
    value ctx i.value = instruction ctx { globals, locals } i := by
  obtain ⟨ir, made, rfl⟩ := wf.block_instruction read placed
  obtain ⟨r, found, kind⟩ := Context.instruction_eq_ok.mp made
  obtain ⟨br', read', home⟩ := wf.function_block known inside
  obtain rfl := Checked.unique read read'
  have around : slotsAround ctx ir.parent = .ok { globals, locals } := by
    simp only [slotsAround, read, Checked.ok_bind, home, known, numbered, slotted]
    rfl
  simp only [value, found, kind, reading, around]

end Listing

namespace Context

/-- The line of the row says what the listing of the row's entity on its own says. -/
def FitsAlone (ctx : Context) : Row → String → Prop
  | .global g, line => ctx.valueText g.value = .ok line
  | .instruction i, line => ∃ alone, ctx.valueText i.value = .ok alone ∧ line = "  " ++ alone
  | row, line => ctx.FitsRow row line

variable {ctx : Context}

theorem plain_fitsAlone : Listing.Plain ctx ctx.FitsAlone := by
  intro row line own fits
  cases row with
  | global | instruction => cases own
  | _ => exact fits

variable (wf : ctx.WellFormed)
include wf

theorem functionText_alone {f : FunctionRef} {text : String}
    (done : ctx.functionText f = .ok text) :
    ∃ rows lines, ctx.functionRows f = .ok rows ∧ text = unlines lines ∧
      List.Forall₂ ctx.FitsAlone rows lines ∧ ∀ line ∈ lines, Text.Printable line := by
  obtain ⟨globals, numbered, rendered⟩ := Listing.render_reading_eq_ok.mp done
  obtain ⟨fr, known, numbered⟩ := Checked.bind_eq_ok.mp numbered
  refine Listing.lays_functionLines plain_fitsAlone (fun locals fr' slotted known' b inside br read
    i placed alone shown => ⟨alone, ?_, rfl⟩) text rendered
  obtain rfl := Checked.unique known known'
  rw [valueText, Listing.value_instruction wf known inside read placed numbered slotted]
  exact shown

section Module

variable {m : ModuleRef} {mr : ModuleRecord} {slots : List ValueRef} {text : String}
  (live : ctx.module m = .ok mr) (numbered : ctx.globalSlots m = .ok slots)
include live numbered

theorem globalLines_alone (done : Listing.render (mr.globals.flatMap fun g =>
      Listing.globalLine ctx { globals := slots } g ++ [.text "\n"]) = .ok text) :
    ∃ lines, List.Forall₂ (fun g line => ctx.valueText g.value = .ok line ∧ Text.Printable line)
      mr.globals lines ∧ text = String.join (lines.map (· ++ "\n")) := by
  refine Listing.render_flatMap_eq_ok (· ++ "\n") _ (fun g listed t rendered => ?_) done
  obtain ⟨line, _, shown, ending, rfl⟩ := Listing.render_append_eq_ok.mp rendered
  obtain rfl := Checked.unique ending Listing.render_text
  refine ⟨line, ⟨?_, (Listing.clean_globalLine g).render shown⟩, rfl⟩
  rw [valueText, Listing.value_global wf live listed numbered]
  exact shown

theorem functionsLines_alone (done : Listing.render (mr.functions.flatMap fun f =>
      .text "\n" :: Listing.functionLines ctx slots f) = .ok text) :
    ∃ bodies, List.Forall₂ (fun f body => ctx.functionText f = .ok body ∧
      ctx.valueText f.value = .ok body) mr.functions bodies ∧
        text = String.join (bodies.map ("\n" ++ ·)) := by
  refine Listing.render_flatMap_eq_ok ("\n" ++ ·) _ (fun f listed t rendered => ?_) done
  obtain ⟨body, shown, rfl⟩ := Listing.render_text_eq_ok.mp rendered
  obtain ⟨fr, known, _⟩ := wf.module_function live listed
  have text : ctx.functionText f = .ok body := by
    rw [functionText, Listing.function_eq_functionLines wf live listed numbered]
    exact shown
  refine ⟨body, ⟨text, ?_⟩, rfl⟩
  rw [valueText, Listing.value_function known]
  exact text

end Module

/-- The text of a module is its comment, the texts of its globals and those of its functions. -/
theorem moduleText_alone {m : ModuleRef} {mr : ModuleRecord} {text : String}
    (live : ctx.module m = .ok mr) (done : ctx.moduleText m = .ok text) :
    ∃ globals functions,
      List.Forall₂ (fun g line => ctx.valueText g.value = .ok line ∧ Text.Printable line)
        mr.globals globals ∧
      List.Forall₂ (fun f body => ctx.functionText f = .ok body ∧
        ctx.valueText f.value = .ok body) mr.functions functions ∧
      text = "; ModuleID = '" ++ mr.name ++ "'\n" ++ (if mr.globals.isEmpty then "" else "\n") ++
        String.join (globals.map (· ++ "\n")) ++ String.join (functions.map ("\n" ++ ·)) := by
  obtain ⟨slots, numbered, rendered⟩ := Listing.render_reading_eq_ok.mp done
  obtain ⟨mr', live', rendered⟩ := Listing.render_reading_eq_ok.mp rendered
  obtain rfl := Checked.unique live live'
  obtain ⟨_, back, upper, shown, rfl⟩ := Listing.render_append_eq_ok.mp rendered
  obtain ⟨_, middle, top, lined, rfl⟩ := Listing.render_append_eq_ok.mp upper
  obtain ⟨separator, separated, rfl⟩ := Listing.render_text_eq_ok.mp top
  obtain ⟨globals, ofGlobals, rfl⟩ := globalLines_alone wf live numbered lined
  obtain ⟨functions, ofFunctions, rfl⟩ := functionsLines_alone wf live numbered shown
  refine ⟨globals, functions, ofGlobals, ofFunctions, ?_⟩
  have separator_eq : separator = if mr.globals.isEmpty then "" else "\n" := by
    cases bare : mr.globals.isEmpty with
    | true =>
      rw [bare] at separated
      exact Checked.unique separated Listing.render_nil
    | false =>
      rw [bare] at separated
      exact Checked.unique separated Listing.render_text
  rw [separator_eq]

end Context

namespace World

variable {w : World} {ctx : Context}

/-- A module is listed as its entities are on their own: after the comment its globals, each on a
line, and its functions, each after a blank line; and a function is listed by the lines its records
fix, in which an instruction stands as it does on its own, behind two blanks. -/
theorem entities_listed_alone (reachable : w.Reachable) (mem : ctx ∈ w.contexts) :
    (∀ m text, ctx.moduleText m = .ok text → ∃ mr globals functions,
      ctx.module m = .ok mr ∧
      List.Forall₂ (fun g line => ctx.valueText g.value = .ok line ∧ Text.Printable line)
        mr.globals globals ∧
      List.Forall₂ (fun f body => ctx.functionText f = .ok body ∧
        ctx.valueText f.value = .ok body) mr.functions functions ∧
      text = "; ModuleID = '" ++ mr.name ++ "'\n" ++ (if mr.globals.isEmpty then "" else "\n") ++
        String.join (globals.map (· ++ "\n")) ++ String.join (functions.map ("\n" ++ ·))) ∧
    ∀ f body, ctx.functionText f = .ok body → ∃ rows lines,
      ctx.functionRows f = .ok rows ∧ body = unlines lines ∧
      List.Forall₂ ctx.FitsAlone rows lines ∧ ∀ line ∈ lines, Text.Printable line := by
  have wf := reachable.sound.wellFormed ctx mem
  refine ⟨fun m text done => ?_, fun f body done => Context.functionText_alone wf done⟩
  obtain ⟨_, _, rendered⟩ := Listing.render_reading_eq_ok.mp done
  obtain ⟨mr, live, _⟩ := Listing.render_reading_eq_ok.mp rendered
  obtain ⟨globals, functions, parts⟩ := Context.moduleText_alone wf live done
  exact ⟨mr, globals, functions, live, parts⟩

def unnamedEntities : World := after [.context, .request 0 .voidType,
  .request 0 (.functionType ⟨⟨1⟩, 0⟩ [] false), .request 0 (.integerType 8),
  .upcast (.type .any ⟨⟨1⟩, 2⟩), .request 0 (.createModule "m"),
  .request 0 (.createGlobal ⟨⟨1⟩, 0⟩ { type := ⟨⟨1⟩, 2⟩ }),
  .request 0 (.createFunction ⟨⟨⟨1⟩, 1⟩⟩ .external "" ⟨⟨1⟩, 0⟩),
  .request 0 (.createBlock "" (some ⟨⟨⟨1⟩, 1⟩⟩) none), .upcast (.value .any ⟨⟨1⟩, 1⟩),
  .request 0 (.createCall ⟨⟨1⟩, 1⟩ [] "" ⟨⟨1⟩, 0⟩), .request 0 (.createBranch ⟨⟨1⟩, 0⟩ ⟨⟨1⟩, 0⟩)]

theorem unnamedEntities_listed_alone : ∃ ctx ∈ unnamedEntities.contexts, ∃ rows lines,
    ctx.moduleText ⟨⟨1⟩, 0⟩ = .ok ("; ModuleID = 'm'\n\n@0 = external global i8\n\n" ++
      "define void @1() \x7b\n  call void @1()\n  br label %0\n\x7d\n") ∧
    ctx.valueText ⟨⟨1⟩, 0⟩ = .ok "@0 = external global i8" ∧
    ctx.valueText ⟨⟨1⟩, 3⟩ = .ok "br label %0" ∧
    ctx.functionRows ⟨⟨⟨1⟩, 1⟩⟩ = .ok rows ∧ List.Forall₂ ctx.FitsAlone rows lines ∧
    unlines lines = "define void @1() \x7b\n  call void @1()\n  br label %0\n\x7d\n" := by
  have computed : (unnamedEntities.contexts[0]?).any (fun ctx : Context =>
      ctx.moduleText ⟨⟨1⟩, 0⟩ = .ok ("; ModuleID = 'm'\n\n@0 = external global i8\n\n" ++
        "define void @1() \x7b\n  call void @1()\n  br label %0\n\x7d\n") ∧
      ctx.valueText ⟨⟨1⟩, 0⟩ = .ok "@0 = external global i8" ∧
      ctx.valueText ⟨⟨1⟩, 3⟩ = .ok "br label %0" ∧
      ctx.functionText ⟨⟨⟨1⟩, 1⟩⟩ =
        .ok "define void @1() \x7b\n  call void @1()\n  br label %0\n\x7d\n") = true := by
    decide +kernel
  obtain ⟨ctx, found, computed⟩ := (Option.any_eq_true _ _).mp computed
  obtain ⟨module, global, branch, function⟩ := of_decide_eq_true computed
  have mem : ctx ∈ unnamedEntities.contexts := List.mem_of_getElem? found
  have listed := entities_listed_alone (reachable_after (by decide +kernel)) mem
  obtain ⟨rows, lines, has, same, each, _⟩ := listed.2 _ _ function
  exact ⟨ctx, mem, rows, lines, module, global, branch, has, each, same.symm⟩

end World
end ModuleIR
