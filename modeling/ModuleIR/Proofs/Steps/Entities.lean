import Mathlib.Data.List.InsertIdx
import ModuleIR.Build.Cursor
import ModuleIR.Build.Modules
import ModuleIR.Proofs.Steps.Constants
import ModuleIR.Proofs.Steps.Naming

set_option autoImplicit false

/-!
# Making modules, globals and functions

A global or function is added and listed in one change, since each of the two records is sound only
with the other in place. The names come after.
-/
namespace ModuleIR

def GlobalSpec.record (spec : GlobalSpec) (m : ModuleRef) : GlobalRecord where
  module := m
  valueType := spec.type
  isConstant := spec.isConstant
  linkage := spec.linkage
  initializer := spec.initializer
  threadLocal := spec.threadLocal
  space := spec.space
  externallyInitialized := spec.externallyInitialized

def Context.checkSpec (ctx : Context) (m : ModuleRef) (spec : GlobalSpec) : Checked Unit :=
  match spec.initializer with
  | some init => ctx.checkInitializer m spec.type init spec.name
  | none => pure ()

theorem Context.checkSpec_eq_ok {ctx : Context} {m : ModuleRef} {spec : GlobalSpec} {u : Unit} :
    ctx.checkSpec m spec = .ok u ↔
      ∀ init, spec.initializer = some init →
        ctx.checkInitializer m spec.type init spec.name = .ok () := by
  unfold checkSpec
  cases spec.initializer with
  | none => exact iff_of_true rfl nofun
  | some init => simp

namespace Context

variable {ctx ctx' : Context}

theorem pushModule_grows (name : String) :
    ctx.Grows { ctx with modules := ctx.modules.push (some { name }) } where
  id := rfl
  types _ _ h := h
  values _ r h := ⟨r, h, rfl, .same _⟩
  blocks _ r h := ⟨r, h, .refl r⟩
  modules _ r h := ⟨r, getElem?_push_of_some h, .refl r⟩
  emptyModules _ h := getElem?_push_of_some h

theorem addModule_spec (wf : ctx.WellFormed) (name : String) :
    ctx.Extends { ctx with modules := ctx.modules.push (some { name }) } ∧
      ({ ctx with modules := ctx.modules.push (some { name }) } : Context).WellFormed := by
  have growth : ctx.Grows { ctx with modules := ctx.modules.push (some { name }) } :=
    pushModule_grows name
  have extension := growth.extends rfl rfl
  refine ⟨extension, wf.revise growth rfl rfl rfl (fun i r h => .inl ⟨r, h, .refl r⟩)
    (fun i r h => .inl ⟨r, h, rfl⟩) ?_ (extension.operandOwned wf)⟩
  intro i r stored
  change (ctx.modules.push _)[i]? = _ at stored
  rw [Array.getElem?_push] at stored
  split at stored
  · obtain rfl := Option.some.inj (Option.some.inj stored)
    exact .inr ⟨by simp, List.nodup_nil, by simp, List.nodup_nil,
      by simp [NameTable.ofModule, NameTable.handles, Table.empty]⟩
  · exact .inl stored

/-! ### Globals -/

theorem valueType_of_check {m : ModuleRef} {type : TypeRef} {init : ConstantRef} {name : String}
    {u : Unit} (checked : ctx.checkInitializer m type init name = .ok u) :
    ctx.valueType init.value = .ok type := by
  obtain ⟨actual, typed, checked⟩ := Checked.bind_eq_ok.mp checked
  split at checked
  · simp [Checked.bind_eq_ok] at checked
  · rename_i same
    exact Decidable.not_not.mp same ▸ typed

theorem initializerSound_of_check {m : ModuleRef} {type : TypeRef} {init : ConstantRef}
    {name : String} {u : Unit} (admitted : ctx.Admits (.value .constant init.value))
    (checked : ctx.checkInitializer m type init name = .ok u) : ctx.InitializerSound m init := by
  simp only [checkInitializer, Checked.bind_eq_ok] at checked
  obtain ⟨actual, typed, checked⟩ := checked
  obtain ⟨r, read, _⟩ := valueType_eq_ok.mp typed
  refine ⟨⟨r, read, admitted.value read⟩, ?_⟩
  have unfaulted : ctx.scopeFault init.value m none true = .ok none := by
    split at checked
    · simp [Checked.bind_eq_ok] at checked
    · obtain ⟨fault, found, rest⟩ := Checked.bind_eq_ok.mp checked
      cases fault with
      | none => exact found
      | some fault => cases rest
  obtain ⟨anchor, home, within⟩ := scopeFault_eq_none.mp unfaulted
  have anchored := anchored_of_anchor home
  cases anchor with
  | free => exact .inl anchored
  | module owner => exact .inr (within ▸ anchored)
  | function owner => cases within
  | detached => cases within

theorem globalPosition_le {m : ModuleRef} {before : Option GlobalRef} {position : Nat}
    (found : ctx.globalPosition m before = .ok position) :
    ∃ r, ctx.module m = .ok r ∧ position ≤ r.globals.length := by
  simp only [globalPosition, Checked.bind_eq_ok] at found
  obtain ⟨r, read, found⟩ := found
  refine ⟨r, read, ?_⟩
  cases before with
  | none =>
    obtain rfl : r.globals.length = position := by simpa using found
    exact Nat.le_refl _
  | some sibling =>
    cases place : r.globals.idxOf? sibling with
    | none => simp [place] at found
    | some i =>
      obtain rfl : i = position := by simpa [place] using found
      exact Nat.le_of_lt (List.findIdx?_eq_some_iff_getElem.mp place).1

def addGlobal (ctx : Context) (type : TypeRef) (g : GlobalRecord) (position : Nat) : Context :=
  (ctx.allocValue { type, kind := .global g }).2.modifyModule g.module fun r =>
    { r with globals := r.globals.insertIdx position ⟨⟨ctx.id, ctx.values.size⟩⟩ }

section AddGlobal

variable {type : TypeRef} {g : GlobalRecord} {position : Nat} {mr : ModuleRecord}

theorem values_addGlobal (i : Nat) : (ctx.addGlobal type g position).values[i]? =
    if i = ctx.values.size then some { type, kind := .global g } else ctx.values[i]? :=
  values_allocValue _ i

theorem addGlobal_grows : ctx.Grows (ctx.addGlobal type g position) :=
  (allocValue_grows _).trans
    (modifyModule_grows fun _ _ => ⟨rfl, List.sublist_insertIdx _ _ _, List.prefix_rfl⟩)

theorem addGlobal_extends : ctx.Extends (ctx.addGlobal type g position) := by
  refine addGlobal_grows.extends_of_instructions rfl fun i r ir stored kind => ?_
  rw [values_addGlobal] at stored
  split at stored
  · obtain rfl := Option.some.inj stored
    cases kind
  · exact ⟨r, ir, stored, kind⟩

theorem value_addGlobal : (ctx.addGlobal type g position).value ⟨ctx.id, ctx.values.size⟩ =
    .ok { type, kind := .global g } :=
  value_eq_ok.mpr ⟨rfl, (values_addGlobal _).trans (if_pos rfl), by simp⟩

theorem global_addGlobal :
    (ctx.addGlobal type g position).global ⟨⟨ctx.id, ctx.values.size⟩⟩ = .ok g :=
  global_eq_ok.mpr ⟨_, value_addGlobal, rfl⟩

theorem module_addGlobal (read : ctx.module g.module = .ok mr) :
    (ctx.addGlobal type g position).module g.module = .ok
      { mr with globals := mr.globals.insertIdx position ⟨⟨ctx.id, ctx.values.size⟩⟩ } := by
  obtain ⟨owner, stored⟩ := module_eq_ok.mp read
  refine module_eq_ok.mpr ⟨owner, ?_⟩
  refine (modules_modifyModule _ _ _).trans ?_
  rw [if_pos rfl]
  change Option.map _ ctx.modules[g.module.index]? = _
  rw [stored]
  rfl

theorem addGlobal_moduleSound (wf : ctx.WellFormed) (read : ctx.module g.module = .ok mr)
    (inside : position ≤ mr.globals.length) :
    (ctx.addGlobal type g position).ModuleSound g.module.index
      { mr with globals := mr.globals.insertIdx position ⟨⟨ctx.id, ctx.values.size⟩⟩ } := by
  have owner := (module_eq_ok.mp read).1
  have growth : ctx.Grows (ctx.addGlobal type g position) := addGlobal_grows
  have sound := growth.moduleSound (wf.moduleSound read)
  have fresh : (⟨⟨ctx.id, ctx.values.size⟩⟩ : GlobalRef) ∉ mr.globals := by
    intro mem
    obtain ⟨gr, live, _⟩ := wf.module_global read mem
    obtain ⟨value, live', _⟩ := global_eq_ok.mp live
    exact value_next_ne_ok live'
  refine ⟨?_, (List.perm_insertIdx _ _ inside).nodup_iff.mpr
    (List.nodup_cons.mpr ⟨fresh, sound.globalsNodup⟩), sound.functions, sound.functionsNodup,
    sound.names⟩
  intro v mem
  rcases (List.mem_insertIdx inside).mp mem with rfl | old
  · refine ⟨g, global_addGlobal, ?_⟩
    rw [growth.id, ← owner]
  · exact sound.globals v old

theorem addGlobal_wellFormed (wf : ctx.WellFormed) (typed : ctx.HasType type)
    (valueType : ctx.HasType g.valueType)
    (initializer : ∀ init, g.initializer = some init → ctx.InitializerSound g.module init)
    (read : ctx.module g.module = .ok mr) (inside : position ≤ mr.globals.length) :
    (ctx.addGlobal type g position).WellFormed := by
  have growth : ctx.Grows (ctx.addGlobal type g position) := addGlobal_grows
  refine wf.revise growth rfl rfl rfl ?_ (fun i r h => .inl ⟨r, h, rfl⟩) ?_
    (addGlobal_extends.operandOwned wf)
  · intro i r h
    rw [values_addGlobal] at h
    split at h
    · rename_i last
      obtain rfl := Option.some.inj h
      refine .inr ⟨⟨growth.hasType typed, ?_⟩, rfl⟩
      exact ⟨growth.hasType valueType,
        ⟨_, module_addGlobal read, last ▸ (List.mem_insertIdx inside).mpr (.inl rfl)⟩,
        fun init h => growth.initializerSound (initializer init h)⟩
    · exact .inl ⟨r, h, .refl r⟩
  · intro i r h
    change ((ctx.allocValue _).2.modifyModule g.module _).modules[i]? = _ at h
    rw [modules_modifyModule] at h
    split at h
    · rename_i same
      change Option.map _ ctx.modules[i]? = _ at h
      rw [← same, (module_eq_ok.mp read).2] at h
      obtain rfl := Option.some.inj (Option.some.inj h)
      exact .inr (same ▸ addGlobal_moduleSound wf read inside)
    · exact .inl h

end AddGlobal

/-- A global keeps its place when its initializer is replaced by a sound one. -/
theorem replaceInitializer_spec (wf : ctx.WellFormed) {g : GlobalRef} {r : GlobalRecord}
    {initializer : Option ConstantRef} (read : ctx.global g = .ok r)
    (sound : ∀ init, initializer = some init → ctx.InitializerSound r.module init) :
    ctx.Extends (ctx.modifyValue g.value ({ · with kind := .global { r with initializer } })) ∧
      (ctx.modifyValue g.value
        ({ · with kind := .global { r with initializer } })).WellFormed := by
  obtain ⟨value, read', kind⟩ := global_eq_ok.mp read
  obtain ⟨_, stored, _⟩ := value_eq_ok.mp read'
  have old := wf.globalSound read
  refine modifyValue_spec wf ?_ ?_
  · intro record same
    obtain rfl : value = record := by simpa [stored] using same
    exact ⟨rfl, kind ▸ .global rfl rfl⟩
  · intro record same
    obtain rfl : value = record := by simpa [stored] using same
    exact .inr ⟨⟨(wf.valueSound read').type, ⟨old.valueType, old.listed, sound⟩⟩, rfl⟩

/-! ### Functions -/

/-- What allocating arguments adds: one value each, behind all others. -/
structure AddsArguments (ctx : Context) (f : FunctionRef) (args : List ArgumentRef)
    (ctx' : Context) : Prop where
  rest : ctx' = { ctx with values := ctx'.values }
  old : ∀ i < ctx.values.size, ctx'.values[i]? = ctx.values[i]?
  fresh : ∀ i r, ctx.values.size ≤ i → ctx'.values[i]? = some r →
    ctx.HasType r.type ∧ (⟨⟨ctx.id, i⟩⟩ : ArgumentRef) ∈ args ∧
      ∃ a : ArgumentRecord, r.kind = .argument a ∧ a.parent = f
  stored : ∀ a ∈ args, a.value.ctx = ctx.id ∧ ctx.values.size ≤ a.value.index ∧
    a.value.index < ctx'.values.size

theorem AddsArguments.value {f : FunctionRef} {args : List ArgumentRef} {v : ValueRef}
    {r : ValueRecord} (adds : ctx.AddsArguments f args ctx') (read : ctx.value v = .ok r) :
    ctx'.value v = .ok r := by
  obtain ⟨owner, stored, live⟩ := value_eq_ok.mp read
  have inside := (Array.getElem?_eq_some_iff.mp stored).1
  have same : ctx'.id = ctx.id := by rw [adds.rest]
  exact value_eq_ok.mpr ⟨owner.trans same.symm, (adds.old _ inside).trans stored, live⟩

def addFunction (ctx filled : Context) (m : ModuleRef) (args : List ArgumentRef) : Context :=
  (filled.modifyFunction ⟨⟨ctx.id, ctx.values.size⟩⟩ ({ · with args })).modifyModule m fun r =>
    { r with functions := r.functions ++ [⟨⟨ctx.id, ctx.values.size⟩⟩] }

section AddFunction

variable {type : TypeRef} {signature : FunctionTypeRef} {linkage : Linkage} {m : ModuleRef}
  {args : List ArgumentRef} {filled : Context}
  (adds : (ctx.allocValue
    { type, kind := .function { module := m, signature, linkage } }).2.AddsArguments
      ⟨⟨ctx.id, ctx.values.size⟩⟩ args filled)
include adds

theorem values_addFunction (i : Nat) : (ctx.addFunction filled m args).values[i]? =
    if i < ctx.values.size then ctx.values[i]?
    else if i = ctx.values.size then
      some { type, kind := .function { module := m, signature, linkage, args } }
    else filled.values[i]? := by
  have size : (ctx.allocValue
      { type, kind := .function { module := m, signature, linkage } }).2.values.size =
    ctx.values.size + 1 := Array.size_push _
  change (filled.modifyValue ⟨ctx.id, ctx.values.size⟩ _).values[i]? = _
  rw [values_modifyValue]
  split
  · rename_i same
    rw [← same, if_neg (Nat.lt_irrefl _), if_pos rfl, adds.old ctx.values.size (by omega),
      values_allocValue, if_pos rfl]
    rfl
  · rename_i other
    split
    · rw [adds.old i (by omega), values_allocValue, if_neg (Ne.symm other)]
    · rw [if_neg (Ne.symm other)]

theorem rest_addFunction : (ctx.addFunction filled m args).id = ctx.id ∧
    (ctx.addFunction filled m args).types = ctx.types ∧
    (ctx.addFunction filled m args).typeTable = ctx.typeTable ∧
    (ctx.addFunction filled m args).constantTable = ctx.constantTable ∧
    (ctx.addFunction filled m args).blocks = ctx.blocks ∧
    (ctx.addFunction filled m args).modules = ctx.modules.modify m.index (Option.map fun r =>
      { r with functions := r.functions ++ [⟨⟨ctx.id, ctx.values.size⟩⟩] }) := by
  have rest := adds.rest
  generalize filled.values = values at rest
  subst rest
  exact ⟨rfl, rfl, rfl, rfl, rfl, rfl⟩

theorem addFunction_grows : ctx.Grows (ctx.addFunction filled m args) := by
  obtain ⟨id, types, _, _, blocks, modules⟩ := rest_addFunction adds
  refine ⟨id, fun i shape h => types ▸ h, ?_, fun i r h => ⟨r, blocks ▸ h, .refl r⟩, ?_, ?_⟩
  · intro i r h
    have inside := (Array.getElem?_eq_some_iff.mp h).1
    exact ⟨r, by rw [values_addFunction adds, if_pos inside, h], rfl, .same _⟩
  · intro i r h
    rw [modules, Array.getElem?_modify, h]
    split
    · exact ⟨{ r with functions := r.functions ++ [⟨⟨ctx.id, ctx.values.size⟩⟩] }, rfl, rfl,
        .refl _, List.prefix_append _ _⟩
    · exact ⟨r, rfl, .refl r⟩
  · intro i h
    rw [modules, Array.getElem?_modify, h]
    split <;> rfl

theorem addFunction_extends : ctx.Extends (ctx.addFunction filled m args) := by
  obtain ⟨_, _, _, _, blocks, _⟩ := rest_addFunction adds
  refine (addFunction_grows adds).extends_of_instructions blocks fun i r ir stored kind => ?_
  rw [values_addFunction adds] at stored
  split at stored
  · exact ⟨r, ir, stored, kind⟩
  · split at stored
    · obtain rfl := Option.some.inj stored
      cases kind
    · obtain ⟨_, _, _, argument, _⟩ := adds.fresh i r
        (by change (ctx.values.push _).size ≤ _; rw [Array.size_push]; omega) stored
      rw [argument] at kind
      cases kind

theorem value_addFunction : (ctx.addFunction filled m args).value ⟨ctx.id, ctx.values.size⟩ =
    .ok { type, kind := .function { module := m, signature, linkage, args } } :=
  value_eq_ok.mpr ⟨(addFunction_grows adds).id.symm,
    (values_addFunction adds _).trans ((if_neg (Nat.lt_irrefl _)).trans (if_pos rfl)), by simp⟩

theorem function_addFunction : (ctx.addFunction filled m args).function
    ⟨⟨ctx.id, ctx.values.size⟩⟩ = .ok { module := m, signature, linkage, args } :=
  function_eq_ok.mpr ⟨_, value_addFunction adds, rfl⟩

theorem module_addFunction {mr : ModuleRecord} (read : ctx.module m = .ok mr) :
    (ctx.addFunction filled m args).module m = .ok
      { mr with functions := mr.functions ++ [⟨⟨ctx.id, ctx.values.size⟩⟩] } := by
  obtain ⟨owner, stored⟩ := module_eq_ok.mp read
  obtain ⟨id, _, _, _, _, modules⟩ := rest_addFunction adds
  refine module_eq_ok.mpr ⟨owner.trans id.symm, ?_⟩
  rw [modules, Array.getElem?_modify, if_pos rfl, stored]
  rfl

theorem argument_addFunction {a : ArgumentRef} (mem : a ∈ args) : ∃ ar : ArgumentRecord,
    (ctx.addFunction filled m args).argument a = .ok ar ∧
      ar.parent = ⟨⟨ctx.id, ctx.values.size⟩⟩ := by
  obtain ⟨owned, beyond, inside⟩ := adds.stored a mem
  change (ctx.values.push _).size ≤ _ at beyond
  rw [Array.size_push] at beyond
  obtain ⟨value, held⟩ : ∃ value, filled.values[a.value.index]? = some value :=
    ⟨_, Array.getElem?_eq_getElem inside⟩
  obtain ⟨_, _, ar, kind, parent⟩ := adds.fresh _ value
    (by change (ctx.values.push _).size ≤ _; rw [Array.size_push]; exact beyond) held
  refine ⟨ar, argument_eq_ok.mpr ⟨value, value_eq_ok.mpr ⟨?_, ?_, by simp [kind]⟩, kind⟩, parent⟩
  · exact owned.trans (addFunction_grows adds).id.symm
  · rw [values_addFunction adds, if_neg (by omega), if_neg (by omega), held]

theorem addFunction_moduleSound (wf : ctx.WellFormed) {mr : ModuleRecord}
    (read : ctx.module m = .ok mr) : (ctx.addFunction filled m args).ModuleSound m.index
      { mr with functions := mr.functions ++ [⟨⟨ctx.id, ctx.values.size⟩⟩] } := by
  have owner := (module_eq_ok.mp read).1
  have growth := addFunction_grows adds
  have sound := growth.moduleSound (wf.moduleSound read)
  have fresh : (⟨⟨ctx.id, ctx.values.size⟩⟩ : FunctionRef) ∉ mr.functions := by
    intro mem
    obtain ⟨fr, live, _⟩ := wf.module_function read mem
    obtain ⟨value, live', _⟩ := function_eq_ok.mp live
    exact value_next_ne_ok live'
  refine ⟨sound.globals, sound.globalsNodup, ?_, ?_, sound.names⟩
  · intro f mem
    rcases List.mem_append.mp mem with old | new
    · exact sound.functions f old
    · obtain rfl := List.mem_singleton.mp new
      refine ⟨_, function_addFunction adds, ?_⟩
      rw [growth.id, ← owner]
  · exact List.nodup_append.mpr ⟨sound.functionsNodup, by simp,
      fun a old b new same => fresh (List.mem_singleton.mp new ▸ same ▸ old)⟩

theorem addFunction_wellFormed (wf : ctx.WellFormed) {mr : ModuleRecord} {result : TypeRef}
    {params : List TypeRef} {variadic : Bool} (typed : ctx.HasType type)
    (shaped : ctx.shape signature.type = .ok (.function result params variadic))
    (read : ctx.module m = .ok mr) : (ctx.addFunction filled m args).WellFormed := by
  obtain ⟨id, types, typeTable, constantTable, blocks, modules⟩ := rest_addFunction adds
  have growth := addFunction_grows adds
  refine wf.revise growth types typeTable constantTable ?_
    (fun i r h => .inl ⟨r, blocks ▸ h, rfl⟩) ?_ ((addFunction_extends adds).operandOwned wf)
  · intro i r h
    rw [values_addFunction adds] at h
    split at h
    · exact .inl ⟨r, h, .refl r⟩
    · split at h
      · rename_i last
        obtain rfl := Option.some.inj h
        refine .inr ⟨⟨growth.hasType typed, ?_⟩, rfl⟩
        refine ⟨⟨_, _, _, growth.shape shaped⟩, ⟨_, module_addFunction adds read, ?_⟩, ?_, by simp,
          List.nodup_nil, ?_⟩
        · rw [id, last]
          exact List.mem_append_right _ (List.mem_singleton.mpr rfl)
        · rw [id, last]
          exact fun a mem => argument_addFunction adds mem
        · simp [NameTable.ofFunction, NameTable.handles, Table.empty]
      · rename_i notOld notFirst
        obtain ⟨typed', mem, a, kind, parent⟩ := adds.fresh i r
          (by change (ctx.values.push _).size ≤ _; rw [Array.size_push]; omega) h
        refine .inr ⟨⟨growth.hasType typed', ?_⟩, by rw [kind]; rfl⟩
        rw [kind]
        refine ⟨_, parent ▸ function_addFunction adds, ?_⟩
        rw [id]
        exact mem
  · intro i r h
    rw [modules, Array.getElem?_modify] at h
    split at h
    · rename_i same
      rw [← same, (module_eq_ok.mp read).2] at h
      obtain rfl := Option.some.inj (Option.some.inj h)
      exact .inr (same ▸ addFunction_moduleSound adds wf read)
    · exact .inl h

end AddFunction

end Context

namespace Build

variable {ctx ctx' : Context}

open Context

theorem allocValue_eq_ok {r : ValueRecord} {v : ValueRef} :
    (allocValue r ctx).result = .ok (v, ctx') ↔
      r.type.ctx = ctx.id ∧ ctx.allocValue r = (v, ctx') := by
  simp only [allocValue, bind_eq_ok, read_eq_ok, update_eq_ok, checkOwner_eq_ok]
  constructor
  · rintro ⟨_, _, ⟨owner, rfl⟩, allocated⟩
    exact ⟨owner, allocated⟩
  · rintro ⟨owner, allocated⟩
    exact ⟨(), ctx, ⟨owner, rfl⟩, allocated⟩

theorem allocArguments_spec {f : FunctionRef} {position : Nat} {types : List TypeRef}
    {args : List ArgumentRef} (known : ∀ t ∈ types, ctx.HasType t)
    (run : (allocArguments f position types ctx).result = .ok (args, ctx')) :
    ctx.AddsArguments f args ctx' := by
  induction types generalizing ctx position args with
  | nil =>
    simp only [allocArguments, pure_eq_ok] at run
    obtain ⟨rfl, rfl⟩ := run
    refine ⟨rfl, fun _ _ => rfl, ?_, by simp⟩
    intro i r beyond stored
    exact absurd (Array.getElem?_eq_some_iff.mp stored).1 (by omega)
  | cons type rest ih =>
    simp only [allocArguments, bind_eq_ok, pure_eq_ok, allocValue_eq_ok] at run
    obtain ⟨v, mid, ⟨_, allocated⟩, others, ctx', run, rfl, rfl⟩ := run
    obtain ⟨rfl, rfl⟩ := Prod.mk.inj allocated
    rw [List.forall_mem_cons] at known
    have tail : (ctx.allocValue { type, kind := .argument ⟨f, position⟩ }).2.AddsArguments f others
        ctx' := ih (fun t mem => (allocValue_grows _).hasType (known.2 t mem)) run
    have size : (ctx.allocValue { type, kind := .argument ⟨f, position⟩ }).2.values.size =
      ctx.values.size + 1 := Array.size_push _
    refine ⟨?_, ?_, ?_, ?_⟩
    · rw [tail.rest]
      rfl
    · intro i inside
      rw [tail.old i (by omega), values_allocValue, if_neg (by omega)]
    · intro i r beyond stored
      by_cases first : i = ctx.values.size
      · rw [tail.old i (by omega), values_allocValue, if_pos first] at stored
        obtain rfl := Option.some.inj stored
        exact ⟨known.1, first ▸ List.mem_cons_self, _, rfl, rfl⟩
      · obtain ⟨typed, mem, argument⟩ := tail.fresh i r (by omega) stored
        exact ⟨typed, List.mem_cons_of_mem _ mem, argument⟩
    · intro a mem
      rcases List.mem_cons.mp mem with rfl | mem
      · refine ⟨rfl, Nat.le_refl _, ?_⟩
        refine Nat.lt_of_not_le fun short => ?_
        have last := tail.old ctx.values.size (by omega)
        rw [values_allocValue, if_pos rfl, Array.getElem?_eq_none short] at last
        cases last
      · obtain ⟨owner, beyond, inside⟩ := tail.stored a mem
        exact ⟨owner, by omega, inside⟩

theorem createModule_spec (wf : ctx.WellFormed) {name : String} {m : ModuleRef}
    (run : (createModule name ctx).result = .ok (m, ctx')) :
    ctx.Extends ctx' ∧ ctx'.WellFormed ∧ ∃ r, ctx'.module m = .ok r := by
  obtain ⟨_, _, emitted, made⟩ := bind_eq_ok.mp run
  obtain rfl := emit_eq_ok.mp emitted
  obtain ⟨rfl, rfl⟩ := Prod.mk.inj (Except.ok.inj made)
  obtain ⟨extends', wf'⟩ := addModule_spec wf name
  exact ⟨extends', wf', _, module_eq_ok.mpr ⟨rfl, Array.getElem?_push_size⟩⟩

def placeGlobal (m : ModuleRef) (spec : GlobalSpec) : Build GlobalRef := do
  let position ← read (·.globalPosition m spec.before)
  let ty ← pointerType spec.type spec.space
  let value ← allocValue { type := ty.type, kind := .global (spec.record m) }
  change (·.modifyModule m fun record =>
    { record with globals := record.globals.insertIdx position ⟨value⟩ })
  let bound ← rebindInModule m none spec.name (.value value)
  change (·.setValueName value bound)
  emit (.globalCreated spec.name (← read (·.moduleName m)))
  return ⟨value⟩

/-- Nothing is done with the initializer but check it. -/
theorem createGlobal_eq (m : ModuleRef) (spec : GlobalSpec) :
    createGlobal m spec = read (·.checkSpec m spec) >>= fun _ => placeGlobal m spec := by
  obtain ⟨type, isConstant, linkage, initializer, name, before, threadLocal, space, external⟩ := spec
  cases initializer <;> rfl

/-- A global is added to its module, after its pointer type, and then named. -/
theorem createGlobal_parts {m : ModuleRef} {spec : GlobalSpec} {g : GlobalRef}
    (run : (createGlobal m spec ctx).result = .ok (g, ctx')) :
    ∃ position ty mid bound last,
      (∀ init, spec.initializer = some init →
        ctx.checkInitializer m spec.type init spec.name = .ok ()) ∧
      ctx.globalPosition m spec.before = .ok position ∧
      (pointerType spec.type spec.space ctx).result = .ok (ty, mid) ∧
      g = ⟨⟨mid.id, mid.values.size⟩⟩ ∧
      (rebindInModule m none spec.name (.value g.value)
        (mid.addGlobal ty.type (spec.record m) position)).result = .ok (bound, last) ∧
      last.setValueName g.value bound = ctx' := by
  simp only [createGlobal_eq, placeGlobal, bind_eq_ok, read_eq_ok, change_eq_ok, emit_eq_ok,
    pure_eq_ok, allocValue_eq_ok, checkSpec_eq_ok] at run
  obtain ⟨_, _, ⟨checked, rfl⟩, position, _, ⟨found, rfl⟩, ty, mid, typed, value, _, ⟨_, allocated⟩,
    _, _, rfl, bound, last, table, _, _, rfl, _, _, ⟨_, rfl⟩, _, _, rfl, rfl, rfl⟩ := run
  obtain ⟨rfl, rfl⟩ := Prod.mk.inj allocated
  exact ⟨position, ty, mid, bound, last, checked, found, typed, rfl, table, rfl⟩

theorem createGlobal_spec (wf : ctx.WellFormed) {m : ModuleRef} {spec : GlobalSpec} {g : GlobalRef}
    (admitted : ∀ init, spec.initializer = some init → ctx.Admits (.value .constant init.value))
    (run : (createGlobal m spec ctx).result = .ok (g, ctx')) :
    ctx.Extends ctx' ∧ ctx'.WellFormed ∧ ∃ r, ctx'.global g = .ok r := by
  obtain ⟨position, ty, mid, bound, last, checked, found, typed, rfl, table, rfl⟩ :=
    createGlobal_parts run
  obtain ⟨mr, read, inside⟩ := globalPosition_le found
  obtain ⟨extends₁, wf₁, shaped, pointee⟩ := pointerType_spec wf typed
  obtain ⟨mr', read', grown⟩ := extends₁.module read
  have sound init (given : spec.initializer = some init) : ctx.InitializerSound m init :=
    initializerSound_of_check (admitted init given) (checked init given)
  have extends₂ : mid.Extends (mid.addGlobal ty.type (spec.record m) position) := addGlobal_extends
  have wf₂ : (mid.addGlobal ty.type (spec.record m) position).WellFormed :=
    addGlobal_wellFormed wf₁ ⟨_, shaped⟩ (extends₁.hasType pointee)
      (fun init h => extends₁.initializerSound (sound init h)) read'
      (Nat.le_trans inside grown.globals.length_le)
  have known : (mid.addGlobal ty.type (spec.record m) position).global
      ⟨⟨mid.id, mid.values.size⟩⟩ = .ok (spec.record m) := global_addGlobal
  obtain ⟨extends₃, wf₃⟩ := rebindInModule_spec wf₂ (.value ⟨mid.id, mid.values.size⟩)
    (holds_global known rfl) table
  obtain ⟨extends₄, wf₄⟩ := Context.setValueName_spec wf₃ ⟨mid.id, mid.values.size⟩ bound
  have extends₃₄ := extends₃.trans extends₄
  obtain ⟨r, known', _⟩ := extends₃₄.global known
  exact ⟨(extends₁.trans extends₂).trans extends₃₄, wf₄, r, known'⟩

theorem setInitializer_parts {g : GlobalRef} {initializer : Option ConstantRef} {u : Unit}
    (run : (setInitializer g initializer ctx).result = .ok (u, ctx')) :
    ∃ gr, ctx.global g = .ok gr ∧ (∀ init, initializer = some init →
        ∃ name, ctx.checkInitializer gr.module gr.valueType init name = .ok ()) ∧
      ctx.modifyValue g.value ({ · with kind := .global { gr with initializer } }) = ctx' := by
  cases initializer with
  | none =>
    simp only [setInitializer, modifyGlobal, bind_eq_ok, read_eq_ok, change_eq_ok] at run
    obtain ⟨r, _, ⟨read, rfl⟩, rfl⟩ := run
    exact ⟨r, read, by simp, rfl⟩
  | some init =>
    simp only [setInitializer, modifyGlobal, bind_eq_ok, read_eq_ok, change_eq_ok] at run
    obtain ⟨_, _, ⟨checked, rfl⟩, r, _, ⟨read, rfl⟩, rfl⟩ := run
    obtain ⟨r', read', checked⟩ := Checked.bind_eq_ok.mp checked
    obtain rfl := Checked.unique read read'
    obtain ⟨name, _, checked⟩ := Checked.bind_eq_ok.mp checked
    refine ⟨r, read, fun other same => ?_, rfl⟩
    obtain rfl := Option.some.inj same
    exact ⟨_, checked⟩

theorem setInitializer_spec (wf : ctx.WellFormed) {g : GlobalRef}
    {initializer : Option ConstantRef} {u : Unit}
    (admitted : ∀ init, initializer = some init → ctx.Admits (.value .constant init.value))
    (run : (setInitializer g initializer ctx).result = .ok (u, ctx')) :
    ctx.Extends ctx' ∧ ctx'.WellFormed := by
  obtain ⟨gr, read, checked, rfl⟩ := setInitializer_parts run
  refine replaceInitializer_spec wf read fun init same => ?_
  obtain ⟨_, checked⟩ := checked init same
  exact initializerSound_of_check (admitted init same) checked

/-- A function is added to its module with its arguments, after its pointer type, and then named. -/
theorem createFunction_parts {signature : FunctionTypeRef} {linkage : Linkage} {name : String}
    {m : ModuleRef} {f : FunctionRef}
    (run : (createFunction signature linkage name m ctx).result = .ok (f, ctx')) :
    ∃ ty mid result params variadic args filled mr bound last,
      (pointerType signature.type .generic ctx).result = .ok (ty, mid) ∧
      f = ⟨⟨mid.id, mid.values.size⟩⟩ ∧
      mid.shape signature.type = .ok (.function result params variadic) ∧
      (allocArguments f 0 params (mid.allocValue
        { type := ty.type, kind := .function { module := m, signature, linkage } }).2).result =
          .ok (args, filled) ∧
      filled.module m = .ok mr ∧
      (rebindInModule m none name (.value f.value) (mid.addFunction filled m args)).result =
        .ok (bound, last) ∧
      last.setValueName f.value bound = ctx' := by
  simp only [createFunction, modifyFunction, bind_eq_ok, read_eq_ok, change_eq_ok, emit_eq_ok,
    pure_eq_ok, allocValue_eq_ok] at run
  obtain ⟨ty, mid, typed, value, _, ⟨_, allocated⟩, ⟨result, params, variadic⟩, _, ⟨signed, rfl⟩, args,
    filled, argued, _, _, ⟨_, _, ⟨_, rfl⟩, rfl⟩, mr, _, ⟨read, rfl⟩, _, _, rfl, bound, last, table, _,
    _, rfl, _, _, ⟨_, rfl⟩, _, _, rfl, rfl, rfl⟩ := run
  obtain ⟨rfl, rfl⟩ := Prod.mk.inj allocated
  exact ⟨ty, mid, result, params, variadic, args, filled, mr, bound, last, typed, rfl,
    (shape_congr rfl rfl _).symm.trans (signature_eq_ok.mp signed), argued,
    (module_congr rfl rfl m).symm.trans read, table, rfl⟩

theorem createFunction_spec (wf : ctx.WellFormed) {signature : FunctionTypeRef} {linkage : Linkage}
    {name : String} {m : ModuleRef} {f : FunctionRef}
    (run : (createFunction signature linkage name m ctx).result = .ok (f, ctx')) :
    ctx.Extends ctx' ∧ ctx'.WellFormed ∧ ∃ r, ctx'.function f = .ok r := by
  obtain ⟨ty, mid, result, params, variadic, args, filled, mr, bound, last, typed, rfl, signed, argued,
    read, table, rfl⟩ := createFunction_parts run
  obtain ⟨extends₁, wf₁, shaped, pointee⟩ := pointerType_spec wf typed
  have adds : (mid.allocValue
      { type := ty.type, kind := .function { module := m, signature, linkage } }).2.AddsArguments
        ⟨⟨mid.id, mid.values.size⟩⟩ args filled :=
    allocArguments_spec (fun t mem => (allocValue_grows _).hasType
      (wf₁.hasType_inner signed (List.mem_cons_of_mem _ mem))) argued
  have read' : mid.module m = .ok mr := by
    have same : filled.modules = mid.modules := by rw [adds.rest]; rfl
    have owner : filled.id = mid.id := by rw [adds.rest]; rfl
    rw [← module_congr owner same]
    exact read
  have extends₂ := addFunction_extends adds
  have wf₂ := addFunction_wellFormed adds wf₁ ⟨_, shaped⟩ signed read'
  obtain ⟨extends₃, wf₃⟩ := rebindInModule_spec wf₂ (.value ⟨mid.id, mid.values.size⟩)
    (holds_function (function_addFunction adds) rfl) table
  obtain ⟨extends₄, wf₄⟩ := Context.setValueName_spec wf₃ ⟨mid.id, mid.values.size⟩ bound
  have extends₃₄ := extends₃.trans extends₄
  obtain ⟨r, known, _⟩ := extends₃₄.function (function_addFunction adds)
  exact ⟨(extends₁.trans extends₂).trans extends₃₄, wf₄, r, known⟩

/-- A text, the global that holds it and the pointer to its first byte are made one after another. -/
theorem globalString_spec (wf : ctx.WellFormed) {m : ModuleRef} {text name : String}
    {c : ConstantRef} (run : (globalString m text name ctx).result = .ok (c, ctx')) :
    ctx.Extends ctx' ∧ ctx'.WellFormed ∧
      ∃ r e, ctx'.value c.value = .ok r ∧ r.kind = .elementPtr e := by
  simp only [globalString, bind_eq_ok, read_eq_ok] at run
  obtain ⟨init, _, stored, type, _, ⟨_, rfl⟩, g, _, made, word, _, typed, zero, _, counted, run⟩ := run
  obtain ⟨extends₁, wf₁, r₁, read₁, kind₁⟩ := constantString_spec wf stored
  obtain ⟨extends₂, wf₂, r₂, read₂⟩ := createGlobal_spec wf₁ (by
    intro other same _
    obtain rfl := Option.some.inj same
    exact ⟨r₁, (value_eq_ok.mp read₁).2.1, .inl (by rw [kind₁]; rfl)⟩) made
  obtain ⟨extends₃, wf₃, _⟩ := integerType_spec wf₂ typed
  obtain ⟨extends₄, wf₄, _⟩ := constantSigned_spec wf₃ counted
  obtain ⟨r₄, read₄, _⟩ := (extends₃.trans extends₄).global read₂
  obtain ⟨value, known, kind⟩ := global_eq_ok.mp read₄
  obtain ⟨extends₅, wf₅, r₅, _, read₅, kind₅⟩ := elementPtr_spec wf₄ (fun _ =>
    ⟨value, (value_eq_ok.mp known).2.1, .inl (by rw [kind]; rfl)⟩) run
  exact ⟨(((extends₁.trans extends₂).trans extends₃).trans extends₄).trans extends₅, wf₅, r₅, _,
    read₅, kind₅⟩

end Build
end ModuleIR
