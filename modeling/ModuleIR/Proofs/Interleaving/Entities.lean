import ModuleIR.Proofs.Interleaving.Naming
import ModuleIR.Proofs.Steps.Entities

set_option autoImplicit false

/-!
# Making entities alike

The steps that make modules, globals and functions, and set what can be set of them, follow each
other. What they make is new on both sides, and is listed at the same place.
-/
namespace ModuleIR

open List (Forall₂)

theorem Pairing.insertIdx_rel {α : Type} {R : α → α → Prop} {as as' : List α} {a a' : α}
    (listed : Forall₂ R as as') (h : R a a') (i : Nat) :
    Forall₂ R (as.insertIdx i a) (as'.insertIdx i a') := by
  induction listed generalizing i with
  | nil =>
    cases i with
    | zero => exact .cons h .nil
    | succ i => exact .nil
  | cons head others ih =>
    cases i with
    | zero => exact .cons h (.cons head others)
    | succ i => exact .cons head (ih i)

namespace Pairing

open Checked (Echoed)

open Context

structure GlobalSpecs (ρ : Pairing) (spec spec' : GlobalSpec) : Prop where
  type : ρ.Types spec.type spec'.type
  isConstant : spec'.isConstant = spec.isConstant
  linkage : spec'.linkage = spec.linkage
  initializer : Option.Rel (ρ.Through ConstantRef.value) spec.initializer spec'.initializer
  name : spec'.name = spec.name
  before : Option.Rel (ρ.Through GlobalRef.value) spec.before spec'.before
  threadLocal : spec'.threadLocal = spec.threadLocal
  space : spec'.space = spec.space
  externallyInitialized : spec'.externallyInitialized = spec.externallyInitialized

variable {ρ ρ₂ : Pairing} {c₁ c₂ c : Context}

theorem GlobalSpecs.record {spec spec' : GlobalSpec} {m m' : ModuleRef}
    (specs : ρ.GlobalSpecs spec spec') (modules : ρ.Modules m m') :
    ρ.Globals (spec.record m) (spec'.record m') :=
  ⟨modules, specs.type, specs.isConstant, specs.linkage, specs.initializer, specs.threadLocal,
    specs.space, specs.externallyInitialized⟩

theorem Reflects.checkSpec (tracks : ρ.Reflects c₁ c) (before : c.BasesBefore)
    {spec spec' : GlobalSpec} {m m' : ModuleRef} (modules : ρ.Modules m m')
    (specs : ρ.GlobalSpecs spec spec') : Echoed Eq (c₁.checkSpec m spec) (c.checkSpec m' spec') := by
  have inits := specs.initializer
  unfold Context.checkSpec
  rw [specs.name]
  generalize spec.initializer = init, spec'.initializer = init' at inits
  cases inits with
  | none => exact .pure rfl
  | some given => exact tracks.checkInitializer before modules specs.type given

namespace Follows

section

variable (s : SideBySide ρ ρ₂ c₁ c₂ c)
include s

theorem createModule (name : String) :
    Follows ρ ρ₂ c₁ c₂ c (Build.createModule name) (Build.createModule name)
      fun ρ' _ m m' => ρ'.Modules m m' := by
  have records : ρ.ModuleRecords { name } { name } := ⟨rfl, .nil, .nil, .empty _⟩
  let push (ctx : Context) : ModuleRef × Context := (⟨ctx.id, ctx.modules.size⟩,
    { ctx with modules := ctx.modules.push (some { name }) })
  have pushed : Follows ρ ρ₂ c₁ c₂ c (Build.update push) (Build.update push)
    fun ρ' _ m m' => ρ'.Modules m m' := .update (s.pushModule records)
  exact .emit pushed

theorem allocValue {r r' : ValueRecord} (records : ρ.ValueRecords r r') (own : r.kind.key? = none) :
    Follows ρ ρ₂ c₁ c₂ c (Build.allocValue r) (Build.allocValue r') fun ρ' c₁' v v' =>
      ρ'.Values v v' ∧ c₁'.Owned (.value v) :=
  .read (s.left.checkOwner records.type) fun _ _ _ _ => .update (s.allocValue records own)

/-! ### Globals -/

theorem placeGlobal {m m' : ModuleRef} {spec spec' : GlobalSpec} (modules : ρ.Modules m m')
    (specs : ρ.GlobalSpecs spec spec') :
    Follows ρ ρ₂ c₁ c₂ c (Build.placeGlobal m spec) (Build.placeGlobal m' spec')
      fun ρ' _ g g' => ρ'.Values g.value g'.value := by
  refine .read (s.left.globalPosition modules specs.before) fun position _ placed same => ?_
  subst same
  have owned : c₁.Owned (.module m) := by
    obtain ⟨mr, read, _⟩ := Checked.bind_eq_ok.mp placed
    exact ⟨mr, read⟩
  rw [specs.space]
  refine (pointerType s specs.type spec.space).bind fun ρ₁ c₁ c ty ty' sub s keeps types => ?_
  replace owned := keeps.owned _ owned
  have record : ρ₁.Globals (spec.record m) (spec'.record m') := (specs.record modules).mono sub
  have records : ρ₁.ValueRecords { type := ty.type, kind := .global (spec.record m) }
    { type := ty'.type, kind := .global (spec'.record m') } := ⟨types, rfl, .global record⟩
  refine (allocValue s records rfl).bind
    fun ρ₃ c₁ c v v' sub' s keeps' ⟨values, made⟩ => ?_
  have modules := (modules.mono sub).mono sub'
  refine .changeThen (s.modifyModule modules (keeps'.owned _ owned) fun r r' same =>
    ⟨same.name, insertIdx_rel same.globals values position, same.functions, same.names⟩)
    fun s keeps => ?_
  rw [specs.name]
  refine (rebindInModule s modules none spec.name (.value values)).bind
    fun ρ₄ c₁ c bound bound' sub s keeps' same => ?_
  subst same
  have modules := modules.mono sub
  have values := values.mono sub
  refine .changeThen (nameChanged s values (keeps'.owned _ (keeps.owned _ made)) bound') fun s _ => ?_
  exact .read (s.left.moduleName modules) fun _ _ _ _ => .emit (.pure s values)

theorem createGlobal {m m' : ModuleRef} {spec spec' : GlobalSpec} (modules : ρ.Modules m m')
    (specs : ρ.GlobalSpecs spec spec') :
    Follows ρ ρ₂ c₁ c₂ c (Build.createGlobal m spec) (Build.createGlobal m' spec')
      fun ρ' _ g g' => ρ'.Values g.value g'.value := by
  rw [Build.createGlobal_eq, Build.createGlobal_eq]
  exact .read (s.left.checkSpec s.tabled.basesBefore modules specs) fun _ _ _ _ =>
    placeGlobal s modules specs

theorem modifyGlobal {g g' : GlobalRef} {F F' : GlobalRecord → GlobalRecord}
    (paired : ρ.Through GlobalRef.value g g')
    (same : ∀ r r', ρ.Globals r r' → ρ.Globals (F r) (F' r')) :
    Follows ρ ρ₂ c₁ c₂ c (Build.modifyGlobal g F) (Build.modifyGlobal g' F') fun _ _ _ _ => True := by
  refine .read (s.left.global paired) fun r r' known records => ?_
  obtain ⟨value, read, kind⟩ := global_eq_ok.mp known
  have owned : c₁.Owned (.value g.value) := ⟨value, read, by rw [kind]; rfl⟩
  exact .change (s.modifyValue paired owned fun q q' _ _ values =>
    ⟨⟨values.type, values.name, .global (same r r' records)⟩, rfl⟩) trivial

theorem setInitializer {g g' : GlobalRef} {k k' : Option ConstantRef}
    (paired : ρ.Through GlobalRef.value g g')
    (initializer : Option.Rel (ρ.Through ConstantRef.value) k k') :
    Follows ρ ρ₂ c₁ c₂ c (Build.setInitializer g k) (Build.setInitializer g' k')
      fun _ _ _ _ => True := by
  have rest : Follows ρ ρ₂ c₁ c₂ c (Build.modifyGlobal g ({ · with initializer := k }))
      (Build.modifyGlobal g' ({ · with initializer := k' })) fun _ _ _ _ => True :=
    modifyGlobal s paired fun _ _ same =>
      ⟨same.module, same.valueType, same.isConstant, same.linkage, initializer, same.threadLocal,
        same.space, same.externallyInitialized⟩
  cases initializer with
  | none => exact rest
  | some init =>
    refine .read (S := Eq) ?_ fun _ _ _ _ => rest
    refine (s.left.global paired).bind fun r r' records => ?_
    refine (s.left.valueName paired).bind fun name name' names => ?_
    subst names
    exact s.left.checkInitializer s.tabled.basesBefore records.module records.valueType init

theorem setGlobalLinkage {g g' : GlobalRef} (paired : ρ.Through GlobalRef.value g g')
    (linkage : Linkage) :
    Follows ρ ρ₂ c₁ c₂ c (Build.setGlobalLinkage g linkage) (Build.setGlobalLinkage g' linkage)
      fun _ _ _ _ => True :=
  modifyGlobal s paired fun _ _ same =>
    ⟨same.module, same.valueType, same.isConstant, rfl, same.initializer, same.threadLocal,
      same.space, same.externallyInitialized⟩

end

/-! ### Functions -/

theorem allocArguments (s : SideBySide ρ ρ₂ c₁ c₂ c) {f f' : FunctionRef}
    (paired : ρ.Through FunctionRef.value f f') {ts ts' : List TypeRef}
    (types : Forall₂ ρ.Types ts ts') (position : Nat) :
    Follows ρ ρ₂ c₁ c₂ c (Build.allocArguments f position ts) (Build.allocArguments f' position ts')
      fun ρ' _ as as' => Forall₂ (ρ'.Through ArgumentRef.value) as as' := by
  induction ts generalizing ρ c₁ c ts' position with
  | nil =>
    cases types
    exact .pure s .nil
  | cons t ts ih =>
    cases types with | @cons _ t' _ ts' first others =>
    have records : ρ.ValueRecords { type := t, kind := .argument ⟨f, position⟩ }
      { type := t', kind := .argument ⟨f', position⟩ } := ⟨first, rfl, .argument paired position⟩
    refine (allocValue s records rfl).bind fun ρ₁ c₁ c v v' sub s _ ⟨values, _⟩ => ?_
    refine (ih s (paired.mono sub) (types_mono sub others) (position + 1)).bind
      fun ρ₃ c₁ c as as' sub' s _ rest => ?_
    exact .pure s (.cons (values.mono sub') rest)

section

variable (s : SideBySide ρ ρ₂ c₁ c₂ c)
include s

theorem modifyFunction {f f' : FunctionRef} {F F' : FunctionRecord → FunctionRecord}
    (paired : ρ.Through FunctionRef.value f f')
    (same : ∀ r r', ρ.Functions r r' → ρ.Functions (F r) (F' r')) :
    Follows ρ ρ₂ c₁ c₂ c (Build.modifyFunction f F) (Build.modifyFunction f' F')
      fun _ _ _ _ => True := by
  refine .read (s.left.function paired) fun r r' known records => ?_
  have changed := functionChanged s paired (owned_of_function known) same
  exact .change changed trivial

theorem createFunction {t t' : FunctionTypeRef} {m m' : ModuleRef} (signature : ρ.Types t.type t'.type)
    (linkage : Linkage) (name : String) (modules : ρ.Modules m m') :
    Follows ρ ρ₂ c₁ c₂ c (Build.createFunction t linkage name m)
      (Build.createFunction t' linkage name m') fun ρ' _ f f' => ρ'.Values f.value f'.value := by
  refine (pointerType s signature .generic).bind fun ρ₁ c₁ c ty ty' sub s _ types => ?_
  have signature := signature.mono sub
  have modules := modules.mono sub
  have record : ρ₁.Functions { module := m, signature := t, linkage }
      { module := m', signature := t', linkage } :=
    ⟨modules, signature, rfl, rfl, .nil, .nil, .empty _⟩
  have records : ρ₁.ValueRecords
      { type := ty.type, kind := .function { module := m, signature := t, linkage } }
      { type := ty'.type, kind := .function { module := m', signature := t', linkage } } :=
    ⟨types, rfl, .function record⟩
  refine (allocValue s records rfl).bind fun ρ₃ c₁ c v v' sub s _ ⟨values, made⟩ => ?_
  have signature := signature.mono sub
  have modules := modules.mono sub
  refine .read (s.left.signature signature) fun ⟨_, params, _⟩ ⟨_, params', _⟩ _ ⟨_, same, _⟩ => ?_
  have functions : ρ₃.Through FunctionRef.value ⟨v⟩ ⟨v'⟩ := values
  refine (allocArguments s functions same 0).bind fun ρ₄ c₁ c args args' sub s keeps arguments => ?_
  have modules := modules.mono sub
  have values := values.mono sub
  have made := keeps.owned _ made
  have listed (r r' : FunctionRecord) (same : ρ₄.Functions r r') :
      ρ₄.Functions { r with args } { r' with args := args' } :=
    ⟨same.module, same.signature, same.linkage, same.convention, arguments, same.blocks, same.names⟩
  refine (modifyFunction s (functions.mono sub) listed).bind fun ρ₅ c₁ c _ _ sub s keeps _ => ?_
  have modules := modules.mono sub
  have values := values.mono sub
  have made := keeps.owned _ made
  refine .read (s.left.module m m' modules) fun mr mr' read _ => ?_
  refine .changeThen (s.modifyModule modules ⟨mr, read⟩ fun r r' same =>
    ⟨same.name, same.globals, List.rel_append same.functions (.cons values .nil), same.names⟩)
    fun s keeps => ?_
  have made := keeps.owned _ made
  refine (rebindInModule s modules none name (.value values)).bind
    fun ρ₆ c₁ c bound bound' sub s keeps same => ?_
  subst same
  have values := values.mono sub
  refine .changeThen (nameChanged s values (keeps.owned _ made) bound') fun s _ => ?_
  exact .read (s.left.moduleName (modules.mono sub)) fun _ _ _ _ => .emit (.pure s values)

theorem setFunctionLinkage {f f' : FunctionRef} (paired : ρ.Through FunctionRef.value f f')
    (linkage : Linkage) :
    Follows ρ ρ₂ c₁ c₂ c (Build.setFunctionLinkage f linkage) (Build.setFunctionLinkage f' linkage)
      fun _ _ _ _ => True :=
  modifyFunction s paired fun _ _ same => ⟨same.module, same.signature, rfl, same.convention,
    same.args, same.blocks, same.names⟩

theorem setFunctionConvention {f f' : FunctionRef} (paired : ρ.Through FunctionRef.value f f')
    (convention : CallingConv) :
    Follows ρ ρ₂ c₁ c₂ c (Build.setFunctionConvention f convention)
      (Build.setFunctionConvention f' convention) fun _ _ _ _ => True :=
  modifyFunction s paired fun _ _ same => ⟨same.module, same.signature, same.linkage, rfl,
    same.args, same.blocks, same.names⟩

/-! ### Strings -/

theorem globalString {m m' : ModuleRef} (modules : ρ.Modules m m') (text name : String) :
    Follows ρ ρ₂ c₁ c₂ c (Build.globalString m text name) (Build.globalString m' text name)
      fun ρ' _ p p' => ρ'.Values p.value p'.value := by
  refine (constantString s text true).bind fun ρ₁ c₁ c init init' sub s _ inits => ?_
  have modules := modules.mono sub
  refine .read (s.left.valueType inits) fun t t' _ types => ?_
  have specs : ρ₁.GlobalSpecs
      { type := t, isConstant := true, linkage := .privateSymbol, initializer := some init, name }
      { type := t', isConstant := true, linkage := .privateSymbol, initializer := some init', name } :=
    ⟨types, rfl, rfl, .some inits, rfl, .none, rfl, rfl, rfl⟩
  refine (createGlobal s modules specs).bind fun ρ₃ c₁ c g g' _ s _ globals => ?_
  refine (integerType s 32).bind fun ρ₄ c₁ c word word' sub s _ ⟨words, _⟩ => ?_
  have globals := globals.mono sub
  refine (constantSigned s words 0).bind fun ρ₅ c₁ c zero zero' sub s _ zeros => ?_
  have base : ρ₅.Through ConstantRef.value g.toConstant g'.toConstant := globals.mono sub
  have index : ρ₅.Through ConstantRef.value zero.toConstant zero'.toConstant := zeros
  exact elementPtr s base (.cons index (.cons index .nil)) true

end

end Follows
end Pairing
end ModuleIR
