import ModuleIR.Proofs.Consistency.Checks
import ModuleIR.Proofs.Steps.Building
import ModuleIR.Proofs.Steps.Survivors

set_option autoImplicit false

/-!
# Building steps are consistent

A step on a well-formed context that is made with admitted handles never comes upon one that breaks
its promise, neither at its start nor after some of its changes: the handles stay admitted while the
context grows.
-/
namespace ModuleIR

def NameScope.handles : NameScope → List Handle
  | .module m => [.module m]
  | .function f => [.value .function f.value]
  | .detached => []

namespace Context

variable {ctx : Context}

theorem admits_operation {o : Operation} (operands : ∀ u ∈ o.operands, ctx.Admits (.value .any u))
    (successors : ∀ b ∈ o.successors, ctx.Admits (.block b)) :
    ∀ h ∈ o.handles, ctx.Admits h := by
  refine List.forall_mem_append.mpr ⟨fun h mem => ?_, fun h mem => ?_⟩
  · obtain ⟨u, operand, rfl⟩ := List.mem_map.mp mem
    exact operands u operand
  · obtain ⟨b, successor, rfl⟩ := List.mem_map.mp mem
    exact successors b successor

section
variable (wf : ctx.WellFormed)
include wf

theorem block_nameScope_admitted {b : BlockRef} {br : BlockRecord} (read : ctx.block b = .ok br) :
    ∀ h ∈ br.nameScope.handles, ctx.Admits h := by
  cases parent : br.parent with
  | none => simp [BlockRecord.nameScope, parent, NameScope.handles]
  | some f =>
    obtain ⟨fr, known, _⟩ := wf.block_listed read parent
    simpa [BlockRecord.nameScope, parent, NameScope.handles] using admits_of_function ⟨fr, known⟩

theorem nameScope_admitted {v : ValueRef} {scope : NameScope} (home : ctx.nameScope v = .ok scope) :
    ∀ h ∈ scope.handles, ctx.Admits h := by
  obtain ⟨r, read, home⟩ := Checked.bind_eq_ok.mp home
  cases kind : r.kind with
  | global g =>
    obtain rfl : NameScope.module g.module = scope := by simpa [kind] using home
    obtain ⟨mr, live, _⟩ := wf.global_listed (global_eq_ok.mpr ⟨r, read, kind⟩ :
      ctx.global ⟨v⟩ = .ok g)
    simpa [NameScope.handles] using admits_of_module ⟨mr, live⟩
  | function f =>
    obtain rfl : NameScope.module f.module = scope := by simpa [kind] using home
    simpa [NameScope.handles] using module_of_function wf
      (function_eq_ok.mpr ⟨r, read, kind⟩ : ctx.function ⟨v⟩ = .ok f)
  | argument a =>
    obtain rfl : NameScope.function a.parent = scope := by simpa [kind] using home
    obtain ⟨fr, known, _⟩ := wf.argument_listed (argument_eq_ok.mpr ⟨r, read, kind⟩ :
      ctx.argument ⟨v⟩ = .ok a)
    simpa [NameScope.handles] using admits_of_function ⟨fr, known⟩
  | instruction i =>
    simp only [kind, Checked.bind_eq_ok] at home
    obtain ⟨br, held, home⟩ := home
    obtain rfl : br.nameScope = scope := by
      cases parent : br.parent <;> simpa [BlockRecord.nameScope, parent] using home
    exact block_nameScope_admitted wf held
  | _ => simp [kind] at home

end
end Context

namespace Build

open Context
open Checked (consistent_ok)

variable {α β : Type} {ctx : Context}

/-- The step does not come upon a handle that breaks its promise. -/
def Consistent (step : Build α) (ctx : Context) : Prop := (step ctx).result.Consistent

namespace Consistent

theorem pure (a : α) : Consistent (Pure.pure a) ctx := consistent_ok

theorem read {reading : Context → Checked α} (h : (reading ctx).Consistent) :
    Consistent (Build.read reading) ctx :=
  h.map

theorem change (f : Context → Context) : Consistent (Build.change f) ctx := consistent_ok

theorem update (f : Context → α × Context) : Consistent (Build.update f) ctx := consistent_ok

theorem emit (event : Event) : Consistent (Build.emit event) ctx := consistent_ok

theorem fail {violation : Violation} (h : ∀ what, violation ≠ .inconsistent what) :
    Consistent (Build.fail violation : Build α) ctx :=
  Checked.consistent_error.mpr h

theorem require (condition : Bool) {violation : Violation}
    (h : ∀ what, violation ≠ .inconsistent what) :
    Consistent (Build.require condition violation) ctx := by
  cases condition
  · exact fail h
  · exact consistent_ok

theorem bind {step : Build α} {next : α → Build β} (first : Consistent step ctx)
    (second : ∀ a ctx', (step ctx).result = .ok (a, ctx') → Consistent (next a) ctx') :
    Consistent (step >>= next) ctx := by
  unfold Consistent
  rw [result_bind]
  exact Checked.Consistent.bind first fun answer run => second answer.1 answer.2 run

theorem reading {reading : Context → Checked α} {next : α → Build β}
    (first : (reading ctx).Consistent)
    (second : ∀ a, reading ctx = .ok a → Consistent (next a) ctx) :
    Consistent (Build.read reading >>= next) ctx := by
  refine bind (read first) fun a ctx' run => ?_
  obtain ⟨known, rfl⟩ := read_eq_ok.mp run
  exact second a known

theorem changing {f : Context → Context} {next : Unit → Build β}
    (second : Consistent (next ()) (f ctx)) : Consistent (Build.change f >>= next) ctx := by
  refine bind (change f) fun _ ctx' run => ?_
  obtain rfl := change_eq_ok.mp run
  exact second

theorem emitting {event : Event} {next : Unit → Build β} (second : Consistent (next ()) ctx) :
    Consistent (Build.emit event >>= next) ctx := by
  refine bind (emit event) fun _ ctx' run => ?_
  obtain rfl := emit_eq_ok.mp run
  exact second

theorem requiring {condition : Bool} {violation : Violation} {next : Unit → Build β}
    (h : ∀ what, violation ≠ .inconsistent what) (second : Consistent (next ()) ctx) :
    Consistent (Build.require condition violation >>= next) ctx := by
  refine bind (require condition h) fun _ ctx' run => ?_
  obtain ⟨_, rfl⟩ := require_eq_ok.mp run
  exact second

end Consistent

/-! ### Types and constants -/

theorem consistent_internType (shape : Shape) : Consistent (internType shape) ctx :=
  .reading (.forM fun _ _ => consistent_checkOwner _ _) fun _ _ => .update _

theorem consistent_integerType (bits : Nat) : Consistent (integerType bits) ctx :=
  .requiring (by simp) (.bind (consistent_internType _) fun _ _ _ => .pure _)

theorem consistent_judged (wf : ctx.WellFormed) {view : TypeView} {t : TypeRef} {judge : Shape → Bool}
    {violation : String → Violation} (admitted : ctx.Admits (.type view t))
    (plain : ∀ text what, violation text ≠ .inconsistent what) :
    Checked.Consistent (do
      if !judge (← ctx.shape t) then throw (violation (← ctx.describeType t))) := by
  refine (consistent_shape admitted).bind fun s read => ?_
  split
  · exact consistent_described wf ⟨s, read⟩ fun text => Checked.consistent_error.mpr (plain text)
  · exact Checked.consistent_ok

theorem consistent_pointerType (wf : ctx.WellFormed) {pointee : TypeRef} {view : TypeView}
    (space : AddressSpace) (admitted : ctx.Admits (.type view pointee)) :
    Consistent (pointerType pointee space) ctx :=
  .reading (consistent_judged wf admitted (by simp)) fun _ _ =>
    .bind (consistent_internType _) fun _ _ _ => .pure _

theorem consistent_arrayType (wf : ctx.WellFormed) {element : TypeRef} {view : TypeView}
    (length : Nat) (admitted : ctx.Admits (.type view element)) :
    Consistent (arrayType element length) ctx :=
  .reading (consistent_judged wf admitted (by simp)) fun _ _ =>
    .bind (consistent_internType _) fun _ _ _ => .pure _

theorem consistent_functionType (wf : ctx.WellFormed) (result : TypeRef) {params : List TypeRef}
    (variadic : Bool) (admitted : ∀ t ∈ params, ctx.Admits (.type .any t)) :
    Consistent (functionType result params variadic) ctx :=
  .reading (.forM fun t mem => consistent_judged wf (admitted t mem) (by simp)) fun _ _ =>
    .bind (consistent_internType _) fun _ _ _ => .pure _

theorem consistent_constantInt (n : WideInt) : Consistent (constantInt n) ctx :=
  .bind (consistent_integerType _) fun _ _ _ => .bind (.update _) fun _ _ _ => .pure _

theorem consistent_checkWidth (bits : Nat) : (WideInt.checkWidth bits).Consistent := by
  unfold WideInt.checkWidth
  split <;> simp

theorem consistent_constantSigned {type : IntegerTypeRef} (value : Int64)
    (admitted : ctx.Admits (.type .integer type.type)) :
    Consistent (constantSigned type value) ctx :=
  .reading (consistent_integerBits admitted) fun _ _ =>
    .reading ((consistent_checkWidth _).bind fun _ _ => consistent_ok) fun _ _ =>
      consistent_constantInt _

theorem consistent_constantBool (value : Bool) : Consistent (constantBool value) ctx :=
  .reading ((consistent_checkWidth _).bind fun _ _ => consistent_ok) fun _ _ =>
    consistent_constantInt _

theorem consistent_constantString (wf : ctx.WellFormed) (text : String) (addNull : Bool) :
    Consistent (constantString text addNull) ctx := by
  refine .bind (consistent_integerType 8) fun byte mid typed => ?_
  obtain ⟨_, wf', shaped⟩ := integerType_spec wf typed
  exact .bind (consistent_arrayType wf' _ (admits_of_hasType ⟨_, shaped⟩)) fun _ _ _ =>
    .bind (.update _) fun _ _ _ => .pure _

theorem consistent_elementPtr (wf : ctx.WellFormed) {base : ConstantRef}
    {indices : List ConstantRef} (inBounds : Bool)
    (admitted : ∀ c ∈ base :: indices, ctx.Admits (.value .constant c.value)) :
    Consistent (elementPtr base indices inBounds) ctx := by
  rw [List.forall_mem_cons] at admitted
  refine .reading (consistent_pointerParts wf admitted.1) fun parts known => ?_
  obtain ⟨source, space⟩ := parts
  obtain ⟨r, _, shaped⟩ := pointerParts_eq_ok.mp known
  have typed : ctx.HasType source := wf.hasType_inner shaped (List.mem_singleton.mpr rfl)
  obtain ⟨walks, reaches⟩ : (ctx.elementType 0 source indices).Consistent ∧
      ∀ target, ctx.elementType 0 source indices = .ok target → ctx.HasType target :=
    consistent_elementType wf admitted.2 typed
  refine .reading walks fun target walked => ?_
  exact .bind (consistent_pointerType wf _ (admits_of_hasType (reaches target walked))) fun _ _ _ =>
    .bind (.update _) fun _ _ _ => .pure _

theorem consistent_allocValue (r : ValueRecord) : Consistent (allocValue r) ctx :=
  .reading (consistent_checkOwner _ _) fun _ _ => .update _

/-! ### Names -/

theorem consistent_rebindInModule {m : ModuleRef} (old : Option String) (name : String)
    (symbol : Symbol) (home : ctx.Admits (.module m)) :
    Consistent (rebindInModule m old name symbol) ctx :=
  .reading (consistent_module home) fun _ _ => .changing (.pure _)

theorem consistent_rebindInFunction {f : FunctionRef} (old : Option String) (name : String)
    (symbol : Symbol) (home : ctx.Admits (.value .function f.value)) :
    Consistent (rebindInFunction f old name symbol) ctx :=
  .reading (consistent_function home) fun _ _ => .changing (.pure _)

theorem consistent_bindIn {scope : NameScope} (old : Option String) (name : String)
    (symbol : Symbol) (home : ∀ h ∈ scope.handles, ctx.Admits h) :
    Consistent (bindIn scope old name symbol) ctx := by
  cases scope with
  | module m => exact consistent_rebindInModule old name symbol (home _ List.mem_cons_self)
  | function f => exact consistent_rebindInFunction old name symbol (home _ List.mem_cons_self)
  | detached => exact .pure _

theorem consistent_setValueName (wf : ctx.WellFormed) {view : ValueView} {v : ValueRef}
    (name : String) (admitted : ctx.Admits (.value view v)) :
    Consistent (setValueName v name) ctx := by
  rw [setValueName_eq]
  refine .reading (consistent_nameScope wf admitted) fun scope home => ?_
  refine .reading (consistent_value admitted) fun record read => ?_
  have entered : Consistent (do
      let bound ← bindIn scope record.name name (.value v)
      change (·.setValueName v bound)) ctx :=
    .bind (consistent_bindIn _ _ _ (nameScope_admitted wf home)) fun _ _ _ => .change _
  split
  · exact .reading (.of_ok (wf.valueSound read).type) fun _ _ => .requiring (by simp) entered
  · exact entered

theorem consistent_setBlockName (wf : ctx.WellFormed) {b : BlockRef} (name : String)
    (admitted : ctx.Admits (.block b)) : Consistent (setBlockName b name) ctx := by
  refine .reading (consistent_block admitted) fun record read => ?_
  have home := block_nameScope_admitted wf read
  cases parent : record.parent with
  | none => exact .bind (.pure _) fun _ _ _ => .change _
  | some f =>
    have function : ctx.Admits (.value .function f.value) :=
      home _ (by simp [BlockRecord.nameScope, parent, NameScope.handles])
    exact .bind (consistent_rebindInFunction _ _ _ function) fun _ _ _ => .change _

theorem consistent_adoptBlockName {f : FunctionRef} {b : BlockRef}
    (function : ctx.Admits (.value .function f.value)) (block : ctx.Admits (.block b)) :
    Consistent (adoptBlockName f b) ctx := by
  refine .reading (consistent_block block) fun record read => ?_
  cases record.name with
  | none => exact .pure _
  | some name => exact .bind (consistent_rebindInFunction _ _ _ function) fun _ _ _ => .change _

/-- The names that are entered on the way take nothing from the instructions that follow. -/
theorem consistent_adoptNames {f : FunctionRef} {is : List InstructionRef}
    (function : ctx.Admits (.value .function f.value))
    (instructions : ∀ i ∈ is, ctx.Admits (.value .any i.value)) :
    Consistent (adoptNames f is) ctx := by
  induction is generalizing ctx with
  | nil => exact .pure _
  | cons i rest ih =>
    rw [List.forall_mem_cons] at instructions
    obtain ⟨first, others⟩ := instructions
    refine .reading (consistent_valueName first) fun name _ => ?_
    cases name with
    | none => exact ih function others
    | some name =>
      refine .bind (consistent_rebindInFunction none name _ function) fun bound mid entered => ?_
      have grown := (rebindInFunction_builds f none name _ ctx bound mid entered).grows
      have named : mid.Grows (mid.setValueName i.value bound) :=
        (setValueName_changes i.value bound mid () _ (change_eq_ok.mpr rfl)).grows
      exact .changing (ih (named.admits (grown.admits function))
        fun j mem => named.admits (grown.admits (others j mem)))

/-! ### Modules, globals and functions -/

theorem consistent_createModule (name : String) : Consistent (createModule name) ctx :=
  .emitting consistent_ok

/-- Once its module is taken out, an erasure runs to its end. -/
theorem consistent_eraseModule (wf : ctx.WellFormed) {m : ModuleRef}
    (admitted : ctx.Admits (.module m)) : Consistent (eraseModule m) ctx := by
  have taken : (ctx.takeModule m).Consistent := by
    refine (consistent_checkOwner _ _).bind fun _ owner => ?_
    obtain ⟨place, stored⟩ := admitted (checkOwner_eq_ok.mp owner)
    cases place <;> simp [stored]
  refine .bind taken fun record mid found => ?_
  obtain ⟨mr, read, same⟩ := takeModule_eq_ok.mp found
  obtain ⟨rfl, rfl⟩ := Prod.mk.inj same
  obtain ⟨ctx', run, _⟩ := eraseContents_spec wf read
  exact .emitting (Checked.Consistent.map (.of_ok ⟨ctx', run⟩))

theorem consistent_modifyGlobal {g : GlobalRef} (f : GlobalRecord → GlobalRecord)
    (admitted : ctx.Admits (.value .global g.value)) : Consistent (modifyGlobal g f) ctx :=
  .reading (consistent_global admitted) fun _ _ => .change _

theorem consistent_modifyFunction {f : FunctionRef} (g : FunctionRecord → FunctionRecord)
    (admitted : ctx.Admits (.value .function f.value)) : Consistent (modifyFunction f g) ctx :=
  .reading (consistent_function admitted) fun _ _ => .change _

theorem consistent_setInitializer (wf : ctx.WellFormed) {g : GlobalRef}
    {initializer : Option ConstantRef} (admitted : ctx.Admits (.value .global g.value))
    (constant : ∀ init ∈ initializer, ctx.Admits (.value .constant init.value)) :
    Consistent (setInitializer g initializer) ctx := by
  have replaced : Consistent (modifyGlobal g ({ · with initializer })) ctx :=
    consistent_modifyGlobal _ admitted
  cases initializer with
  | none => exact replaced
  | some init =>
    refine .reading ((consistent_global admitted).bind fun record known => ?_) fun _ _ => replaced
    have sound := wf.globalSound known
    obtain ⟨mr, live, _⟩ := sound.listed
    exact (consistent_valueName admitted).bind fun _ _ => consistent_checkInitializer wf
      (constant init rfl) (admits_of_hasType sound.valueType) (admits_of_module ⟨mr, live⟩)

theorem consistent_checkSpec (wf : ctx.WellFormed) {m : ModuleRef} {spec : GlobalSpec}
    (home : ctx.Admits (.module m)) (typed : ctx.Admits (.type .any spec.type))
    (constant : ∀ init ∈ spec.initializer, ctx.Admits (.value .constant init.value)) :
    (ctx.checkSpec m spec).Consistent := by
  unfold checkSpec
  cases given : spec.initializer with
  | none => exact consistent_ok
  | some init => exact consistent_checkInitializer wf (constant init given) typed home

theorem consistent_createGlobal (wf : ctx.WellFormed) {m : ModuleRef} {spec : GlobalSpec}
    (home : ctx.Admits (.module m)) (typed : ctx.Admits (.type .any spec.type))
    (constant : ∀ init ∈ spec.initializer, ctx.Admits (.value .constant init.value)) :
    Consistent (createGlobal m spec) ctx := by
  rw [createGlobal_eq]
  refine .reading (consistent_checkSpec wf home typed constant) fun _ _ => ?_
  refine .reading (consistent_globalPosition home) fun position _ => ?_
  refine .bind (consistent_pointerType wf _ typed) fun ty mid pointed => ?_
  have grown := (pointerType_builds _ _ ctx ty mid pointed).grows
  refine .bind (consistent_allocValue _) fun value last allocated => .changing ?_
  obtain ⟨_, stored⟩ := allocValue_eq_ok.mp allocated
  obtain ⟨rfl, rfl⟩ := Prod.mk.inj stored
  have added : mid.Grows (mid.addGlobal ty.type (spec.record m) position) := addGlobal_grows
  have home' := added.admits (grown.admits home)
  refine .bind (consistent_rebindInModule none spec.name _ home') fun bound after entered => ?_
  have named := (rebindInModule_builds m none spec.name _ _ bound after entered).grows
  have home'' : after.Admits (.module m) := named.admits home'
  exact .changing (.reading (consistent_moduleName home'') fun _ _ => .emitting (.pure _))

theorem consistent_allocArguments (f : FunctionRef) (position : Nat) (types : List TypeRef) :
    Consistent (allocArguments f position types) ctx := by
  induction types generalizing ctx position with
  | nil => exact .pure _
  | cons type rest ih =>
    exact .bind (consistent_allocValue _) fun _ _ _ => .bind (ih _) fun _ _ _ => .pure _

/-- A new function can be read while its arguments are added, and its module all the time. -/
theorem consistent_createFunction (wf : ctx.WellFormed) {signature : FunctionTypeRef}
    (linkage : Linkage) (name : String) {m : ModuleRef}
    (typed : ctx.Admits (.type .function signature.type)) (home : ctx.Admits (.module m)) :
    Consistent (createFunction signature linkage name m) ctx := by
  refine .bind (consistent_pointerType wf _ typed) fun ty mid pointed => ?_
  have grown := (pointerType_builds _ _ ctx ty mid pointed).grows
  obtain ⟨_, wf₁, _⟩ := pointerType_spec wf pointed
  refine .bind (consistent_allocValue _) fun value first allocated => ?_
  obtain ⟨_, stored⟩ := allocValue_eq_ok.mp allocated
  obtain ⟨rfl, rfl⟩ := Prod.mk.inj stored
  have typed' : mid.Admits (.type .function signature.type) := grown.admits typed
  refine .reading (consistent_signature typed') fun parts signed => ?_
  obtain ⟨result, params, variadic⟩ := parts
  have known : ∀ t ∈ params, mid.HasType t := fun t mem =>
    wf₁.hasType_inner (signature_eq_ok.mp signed) (List.mem_cons_of_mem _ mem)
  refine .bind (consistent_allocArguments _ 0 params) fun args filled argued => ?_
  have adds := allocArguments_spec (fun t mem => (allocValue_grows _).hasType (known t mem)) argued
  have made := adds.value ((value_allocValue (by simp)).mpr (.inr ⟨rfl, rfl⟩))
  have function : filled.Admits (.value .function ⟨mid.id, mid.values.size⟩) :=
    fun _ => (holds_value made rfl).2
  refine .bind (consistent_modifyFunction _ function) fun _ listed changed => ?_
  simp only [modifyFunction, bind_eq_ok, read_eq_ok, change_eq_ok] at changed
  obtain ⟨_, _, ⟨_, rfl⟩, rfl⟩ := changed
  have home' : filled.Admits (.module m) := by
    rw [adds.rest]
    exact grown.admits home
  refine .reading (consistent_module (show (filled.modifyFunction _ _).Admits (.module m) from home'))
    fun _ _ => .changing ?_
  have home'' : (mid.addFunction filled m args).Admits (.module m) :=
    (addFunction_grows adds).admits (grown.admits home)
  refine .bind (consistent_rebindInModule none name _ home'') fun bound after entered => ?_
  have named := (rebindInModule_builds m none name _ _ bound after entered).grows
  have last : after.Admits (.module m) := named.admits home''
  exact .changing (.reading (consistent_moduleName last) fun _ _ => .emitting (.pure _))

theorem consistent_globalString (wf : ctx.WellFormed) {m : ModuleRef} (text name : String)
    (home : ctx.Admits (.module m)) : Consistent (globalString m text name) ctx := by
  refine .bind (consistent_constantString wf text true) fun init c₁ stored => ?_
  obtain ⟨extends₁, wf₁, r₁, read₁, kind₁⟩ := constantString_spec wf stored
  have constant : c₁.Admits (.value .constant init.value) :=
    fun _ => (holds_value read₁ (by rw [kind₁]; rfl)).2
  refine .reading (consistent_valueType constant) fun type typed => ?_
  obtain ⟨r, read, rfl⟩ := valueType_eq_ok.mp typed
  have given : ∀ other ∈ some init, c₁.Admits (.value .constant other.value) := by
    simpa using constant
  refine .bind (consistent_createGlobal wf₁ (extends₁.admits home)
    (admits_of_hasType (wf₁.valueSound read).type) given) fun g c₂ made => ?_
  obtain ⟨_, wf₂, r₂, known₂⟩ := createGlobal_spec wf₁ given made
  refine .bind (consistent_integerType 32) fun word c₃ worded => ?_
  obtain ⟨extends₃, wf₃, shaped⟩ := integerType_spec wf₂ worded
  refine .bind (consistent_constantSigned 0 fun _ => (holds_type shaped rfl).2)
    fun zero c₄ counted => ?_
  obtain ⟨extends₄, wf₄, r₄, _, _, _, read₄, kind₄⟩ := constantSigned_spec wf₃ counted
  have index : c₄.Admits (.value .constant zero.value) :=
    fun _ => (holds_value read₄ (by rw [kind₄]; rfl)).2
  have base : c₄.Admits (.value .constant g.value) :=
    extends₄.admits (extends₃.admits fun _ => (holds_global known₂ rfl).2)
  exact consistent_elementPtr wf₄ true (by simpa using ⟨base, index⟩)

/-! ### Blocks and instructions -/

theorem consistent_insertBlock (wf : ctx.WellFormed) {b : BlockRef} {f : FunctionRef}
    (before : Option BlockRef) (block : ctx.Admits (.block b))
    (function : ctx.Admits (.value .function f.value)) :
    Consistent (insertBlock b f before) ctx := by
  refine .reading (consistent_block block) fun br read => ?_
  cases parent : br.parent with
  | some existing =>
    obtain ⟨fr, known, _⟩ := wf.block_listed read parent
    exact .reading (.of_ok (functionName_reads ⟨fr, known⟩)) fun _ _ =>
      .bind (.fail (by simp)) fun _ _ failed => (fail_eq_ok.mp failed).elim
  | none =>
    refine .reading (consistent_blockPosition function) fun position found => ?_
    refine .reading (consistent_checkInsertion wf block function) fun _ checked => ?_
    obtain ⟨fr, known, inside⟩ := blockPosition_le found
    have places : ctx.Places (ctx.placeBlock b f position) b f := placeBlock_places read parent known
    have wf' : (ctx.placeBlock b f position).WellFormed :=
      placeBlock_wellFormed wf read parent known inside (checkInsertion_owned read checked)
    refine .bind (consistent_modifyFunction _ function) fun _ listed changed => ?_
    simp only [modifyFunction, bind_eq_ok, read_eq_ok, change_eq_ok] at changed
    obtain ⟨_, _, ⟨_, rfl⟩, rfl⟩ := changed
    refine .changing ?_
    have block' := places.toGrows.admits block
    have function' := places.toGrows.admits function
    refine .bind (consistent_adoptBlockName function' block') fun _ mid entered => ?_
    obtain ⟨extends₂, wf₂⟩ := adoptBlockName_spec wf' entered
    have block₂ : mid.Admits (.block b) := extends₂.admits block'
    have function₂ : mid.Admits (.value .function f.value) := extends₂.admits function'
    refine .reading (consistent_block block₂) fun br₂ read₂ => ?_
    refine .bind (consistent_adoptNames function₂ fun i mem => ?_) fun _ last adopted => ?_
    · obtain ⟨ir, made, _⟩ := wf₂.block_instruction read₂ mem
      obtain ⟨r, held, _⟩ := instruction_eq_ok.mp made
      exact admits_of_value ⟨r, held⟩
    · obtain ⟨extends₃, _⟩ := adoptNames_spec wf₂ adopted
      exact .reading (consistent_block (extends₃.admits block₂)) fun _ _ =>
        .reading (consistent_functionName (extends₃.admits function₂)) fun _ _ => .emit _

theorem consistent_createBlock (wf : ctx.WellFormed) (name : String) {parent : Option FunctionRef}
    (before : Option BlockRef) (function : ∀ f ∈ parent, ctx.Admits (.value .function f.value)) :
    Consistent (createBlock name parent before) ctx := by
  refine .bind (.update _) fun b grown made => ?_
  obtain ⟨rfl, rfl⟩ := Prod.mk.inj (update_eq_ok.mp made)
  obtain ⟨extends', wf'⟩ := addBlock_spec wf (looseName name)
  cases parent with
  | none => exact .requiring (by simp) (.pure _)
  | some f =>
    refine .bind (consistent_insertBlock wf' before (fun _ => ⟨_, Array.getElem?_push_size⟩) ?_)
      fun _ _ _ => .pure _
    exact extends'.admits (function f rfl)

theorem consistent_append (wf : ctx.WellFormed) {b : BlockRef} {type : TypeRef}
    {operation : Operation} (name : String) (block : ctx.Admits (.block b))
    (typed : ctx.HasType type) (references : ∀ h ∈ operation.handles, ctx.Admits h)
    (owned : ∀ br, ctx.block b = .ok br → ∀ u ∈ operation.operands,
      u.ctx = ctx.id ∨ (operation = .ret (some u) ∧ br.parent = none)) :
    Consistent (append b type operation name) ctx := by
  refine .reading (consistent_checkOpen wf block) fun _ opened => ?_
  obtain ⟨br, read⟩ := block_of_terminator? (checkOpen_eq_ok.mp opened)
  refine .bind (consistent_allocValue _) fun value mid allocated => .changing ?_
  obtain ⟨_, stored⟩ := allocValue_eq_ok.mp allocated
  obtain ⟨rfl, rfl⟩ := Prod.mk.inj stored
  have wf' := addInstruction_wellFormed wf read typed references (owned br read)
  have made : (ctx.addInstruction b type operation).Admits
      (.value .any ⟨ctx.id, ctx.values.size⟩) := admits_of_value ⟨_, value_addInstruction⟩
  split
  · exact .bind (consistent_setValueName wf' name made) fun _ _ _ => .pure _
  · exact .pure _

theorem consistent_createCall (wf : ctx.WellFormed) {callee : ValueRef} {args : List ValueRef}
    (name : String) {b : BlockRef} (operands : ∀ u ∈ callee :: args, ctx.Admits (.value .any u))
    (block : ctx.Admits (.block b)) : Consistent (createCall callee args name b) ctx := by
  refine .reading (consistent_checkCall wf operands) fun signature called => ?_
  obtain ⟨calleeLive, argsLive, _, _, _, signed⟩ := checkCall_live called
  have first := operands callee List.mem_cons_self
  refine .reading (consistent_checkDirectCallee wf first block) fun _ _ => ?_
  refine .reading (consistent_checkOperandScope wf block fun u mem =>
    operands u (List.mem_cons_of_mem _ mem)) fun _ _ => ?_
  refine .reading (.of_ok ⟨_, signed⟩) fun parts known => ?_
  have typed := wf.hasType_inner (signature_eq_ok.mp known) List.mem_cons_self
  refine .bind (consistent_append wf name block typed ?_ fun br _ u mem => ?_) fun _ _ _ => .pure _
  · refine admits_operation (fun u mem => operands u ?_) (by simp [Operation.successors])
    simpa [Operation.operands, or_comm] using mem
  · obtain ⟨r, read⟩ : ∃ r, ctx.value u = .ok r := by
      rcases List.mem_append.mp mem with arg | last
      · exact argsLive u arg
      · exact List.mem_singleton.mp last ▸ calleeLive
    exact .inl (value_eq_ok.mp read).1

theorem consistent_appendVoid (wf : ctx.WellFormed) {b : BlockRef} {operation : Operation}
    (handle : InstructionRef → α) (block : ctx.Admits (.block b))
    (references : ∀ h ∈ operation.handles, ctx.Admits h)
    (owned : ∀ u ∈ operation.operands, u.ctx = ctx.id ∨
      (operation = .ret (some u) ∧ ∃ br, ctx.block b = .ok br ∧ br.parent = none)) :
    Consistent (do
      let void ← voidType
      return handle (← append b void operation "")) ctx := by
  refine .bind (consistent_internType _) fun void mid typed => ?_
  obtain ⟨extends', wf', shaped⟩ := voidType_spec wf typed
  refine .bind (consistent_append wf' "" (extends'.admits block) ⟨_, shaped⟩
    (fun h mem => extends'.admits (references h mem)) fun br' read' u mem => ?_) fun _ _ _ => .pure _
  rcases owned u mem with own | ⟨returned, br, read, loose⟩
  · exact .inl (own.trans extends'.id.symm)
  · exact .inr ⟨returned, (extends'.parents b br br' read read').trans loose⟩

theorem consistent_createReturn (wf : ctx.WellFormed) {value : Option ValueRef} {b : BlockRef}
    (operand : ∀ u ∈ value, ctx.Admits (.value .any u)) (block : ctx.Admits (.block b)) :
    Consistent (createReturn value b) ctx := by
  refine .reading (consistent_checkReturn wf operand block) fun _ checked => ?_
  have made : Consistent (do
      let void ← voidType
      return (⟨(← append b void (.ret value) "").value⟩ : ReturnRef)) ctx := by
    refine consistent_appendVoid wf (fun i => (⟨i.value⟩ : ReturnRef)) block ?_ fun u mem => ?_
    · exact admits_operation (by simpa [Operation.operands] using operand)
        (by simp [Operation.successors])
    · obtain rfl : value = some u := by simpa [Operation.operands] using mem
      obtain ⟨br, read, loose | owned⟩ := checkReturn_owned checked
      · exact .inr ⟨rfl, br, read, loose⟩
      · exact .inl (owned u rfl)
  cases value with
  | none => exact made
  | some v =>
    refine .reading (consistent_checkOperandScope wf block ?_) fun _ _ => made
    simpa using operand

theorem consistent_createBranch (wf : ctx.WellFormed) {target b : BlockRef}
    (successor : ctx.Admits (.block target)) (block : ctx.Admits (.block b)) :
    Consistent (createBranch target b) ctx := by
  have admitted : ∀ h ∈ (Operation.br target).handles, ctx.Admits h :=
    admits_operation (by simp [Operation.operands]) (by simpa [Operation.successors])
  exact consistent_appendVoid wf (fun i => (⟨i.value⟩ : BranchRef)) block admitted
    (by simp [Operation.operands])

theorem consistent_createCondBranch (wf : ctx.WellFormed) {cond : ValueRef}
    {ifTrue ifFalse b : BlockRef} (operand : ctx.Admits (.value .any cond))
    (successors : ctx.Admits (.block ifTrue) ∧ ctx.Admits (.block ifFalse))
    (block : ctx.Admits (.block b)) : Consistent (createCondBranch cond ifTrue ifFalse b) ctx := by
  refine .reading (consistent_checkCondition wf operand) fun _ tested => ?_
  refine .reading (consistent_checkOperandScope wf block (by simpa using operand)) fun _ _ => ?_
  refine consistent_appendVoid wf (fun i => (⟨i.value⟩ : BranchRef)) block ?_ fun u mem => ?_
  · exact admits_operation (by simpa [Operation.operands] using operand)
      (by simpa [Operation.successors] using successors)
  · obtain rfl : u = cond := by simpa [Operation.operands] using mem
    obtain ⟨r, known⟩ := checkCondition_live tested
    exact .inl (value_eq_ok.mp known).1

theorem consistent_setCallConvention {c : CallRef} (convention : CallingConv)
    (admitted : ctx.Admits (.value .call c.value)) :
    Consistent (setCallConvention c convention) ctx := by
  refine .reading (consistent_instruction (i := c.toInstruction) ofInstruction_call admitted)
    fun record _ => ?_
  obtain ⟨parent, operation⟩ := record
  cases operation with
  | call => exact .change _
  | _ => exact .pure _

end Build

namespace Request

open Build

variable {ctx : Context}

/-- No request with admitted handles comes upon a handle that breaks its promise. -/
theorem consistent (wf : ctx.WellFormed) {request : Request}
    (admitted : ∀ h ∈ request.handles, ctx.Admits h) : Consistent request.run ctx := by
  have answers {α : Type} {step : Build α} (handles : α → List Handle) (h : Consistent step ctx) :
      Consistent (do return handles (← step)) ctx := h.bind fun _ _ _ => .pure _
  have silent {step : Build Unit} (h : Consistent step ctx) :
      Consistent (do step; return ([] : List Handle)) ctx := h.bind fun _ _ _ => .pure _
  have given {h : Handle} (mem : h ∈ request.handles) := admitted h mem
  cases request with
  | voidType | labelType => exact answers _ (consistent_internType _)
  | integerType bits => exact answers _ (consistent_integerType bits)
  | pointerType pointee space =>
    exact answers _ (consistent_pointerType wf space (given List.mem_cons_self))
  | arrayType element length =>
    exact answers _ (consistent_arrayType wf length (given List.mem_cons_self))
  | functionType result params variadic =>
    exact answers _ (consistent_functionType wf result variadic fun t mem =>
      given (List.mem_map_of_mem (List.mem_cons_of_mem _ mem)))
  | constantInt value built => exact answers _ (consistent_constantInt value)
  | constantSigned type value =>
    exact answers _ (consistent_constantSigned value (given List.mem_cons_self))
  | constantBool value => exact answers _ (consistent_constantBool value)
  | constantString text addNull => exact answers _ (consistent_constantString wf text addNull)
  | elementPtr base indices inBounds =>
    exact answers _ (consistent_elementPtr wf inBounds fun c mem => given (List.mem_map_of_mem mem))
  | createModule name => exact answers _ (consistent_createModule name)
  | eraseModule m => exact silent (consistent_eraseModule wf (given List.mem_cons_self))
  | createGlobal m spec =>
    refine answers _ (consistent_createGlobal wf ?_ ?_ fun init mem => ?_) <;>
      exact given (by simp_all [handles])
  | setInitializer g initializer =>
    exact silent (consistent_setInitializer wf (given List.mem_cons_self) fun init mem =>
      given (by simp_all [handles]))
  | setGlobalLinkage g linkage => exact silent (consistent_modifyGlobal _ (given List.mem_cons_self))
  | globalString m text name =>
    exact answers _ (consistent_globalString wf text name (given List.mem_cons_self))
  | createFunction signature linkage name m =>
    exact answers _ (consistent_createFunction wf linkage name (given List.mem_cons_self)
      (given (List.mem_cons_of_mem _ List.mem_cons_self)))
  | setFunctionLinkage f linkage | setFunctionConvention f convention =>
    exact silent (consistent_modifyFunction _ (given List.mem_cons_self))
  | setValueName v name => exact silent (consistent_setValueName wf name (given List.mem_cons_self))
  | setBlockName b name => exact silent (consistent_setBlockName wf name (given List.mem_cons_self))
  | createBlock name parent before =>
    exact answers _ (consistent_createBlock wf name before fun f mem =>
      given (by simp_all [handles]))
  | insertBlock b f before =>
    exact silent (consistent_insertBlock wf before (given List.mem_cons_self)
      (given (List.mem_cons_of_mem _ List.mem_cons_self)))
  | createCall callee args name b =>
    exact answers _ (consistent_createCall wf name (fun u mem =>
      given (List.mem_cons_of_mem _ (List.mem_map_of_mem mem))) (given List.mem_cons_self))
  | createReturn value b =>
    exact answers _ (consistent_createReturn wf (fun u mem => given (by simp_all [handles]))
      (given List.mem_cons_self))
  | createBranch target b =>
    exact answers _ (consistent_createBranch wf (given List.mem_cons_self)
      (given (List.mem_cons_of_mem _ List.mem_cons_self)))
  | createCondBranch cond ifTrue ifFalse b =>
    exact answers _ (consistent_createCondBranch wf (given (by simp [handles]))
      ⟨given (by simp [handles]), given (by simp [handles])⟩ (given (by simp [handles])))
  | setCallConvention c convention =>
    exact silent (consistent_setCallConvention convention (given List.mem_cons_self))

end Request
end ModuleIR
