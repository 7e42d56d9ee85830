import ModuleIR.Proofs.Names.Insertion
import ModuleIR.Proofs.World.Reachable

set_option autoImplicit false

/-!
# Name tables mirror names

In every context that can be built, the table of a live module binds a name to a global or function
exactly when it is listed in the module under that name, and the table of a live function binds a name
to an argument, block or instruction exactly when it is in the function under that name. So a lookup
by name finds an entity by its current name, and by no other.
-/
namespace ModuleIR

namespace Context

variable {ctx ctx' : Context} {m : ModuleRef} {mr : ModuleRecord} {f : FunctionRef}
  {fr : FunctionRecord} {scope : NameScope} {s : Symbol} {n : String} {t : NameTable}

/-! ### Erasure -/

theorem anchored_of_scoped {v : ValueRef} (here : ctx.Scoped scope (.value v)) :
    (∃ m, scope = .module m ∧ ctx.Anchored v (.module m)) ∨
      ∃ f, scope = .function f ∧ ctx.Anchored v (.function f) := by
  rcases scoped_value.mp here with ⟨g, known, same⟩ | ⟨f, known, same⟩ | ⟨a, known, same⟩ |
    ⟨i, known, br, f, placed, parent, same⟩
  · obtain ⟨r, read, kind⟩ := global_eq_ok.mp known
    exact .inl ⟨g.module, same, .global read kind⟩
  · obtain ⟨r, read, kind⟩ := function_eq_ok.mp known
    exact .inl ⟨f.module, same, .function read kind⟩
  · obtain ⟨r, read, kind⟩ := argument_eq_ok.mp known
    exact .inr ⟨a.parent, same, .argument read kind⟩
  · obtain ⟨r, read, kind⟩ := instruction_eq_ok.mp known
    exact .inr ⟨f, same, .placed read kind placed parent⟩

namespace Erases

variable (e : ctx.Erases m ctx') (held : ctx'.TableOf t scope)
include e held

theorem function_of_table (same : scope = .function f) :
    ∃ fr, ctx.function f = .ok fr ∧ fr.module ≠ m := by
  subst same
  obtain ⟨r, read, names⟩ := held
  obtain ⟨fr, kind, _⟩ := function_of_names? names
  exact ⟨fr, e.function.mp (function_eq_ok.mpr ⟨r, read, kind⟩)⟩

theorem value_survives {v : ValueRef} (here : ctx.Scoped scope (.value v)) : ¬ctx.BelongsTo m v := by
  rcases anchored_of_scoped here with ⟨n, rfl, home⟩ | ⟨f, same, home⟩
  · obtain ⟨mr, live, _⟩ := held
    exact not_belongsTo_other home (e.module.mp live).2
  · obtain ⟨fr, known, other⟩ := e.function_of_table held same
    exact mt (belongsTo_inside home known).mp other

theorem block_survives {b : BlockRef} (here : ctx.BlockIn scope b) : ¬ctx.BlockBelongsTo m b := by
  obtain ⟨br, f, read, parent, same⟩ := here
  obtain ⟨fr, known, other⟩ := e.function_of_table held same
  exact mt (blockBelongsTo_placed read parent known).mp other

theorem names : ctx'.Names scope s n ↔ ctx.Names scope s n := by
  constructor
  · intro named
    refine named.of_records (fun v r _ read name => ?_) (fun b r f _ read parent => ?_)
    · exact ⟨r, (e.value.mp read).1, name, rfl⟩
    · exact ⟨r, (e.block.mp read).1, rfl, parent⟩
  · intro named
    have here := named.1
    refine named.of_records (fun v r same read name => ?_) (fun b r f inside read parent => ?_)
    · subst same
      exact ⟨r, e.value.mpr ⟨read, e.value_survives held here⟩, name, rfl⟩
    · refine ⟨r, e.block.mpr ⟨read, e.block_survives held ?_⟩, rfl, parent⟩
      cases s with
      | block c =>
        obtain rfl : c = b := inside
        exact here
      | value v =>
        obtain ⟨r', home, live, kind, at_home⟩ := here
        obtain ⟨r'', live', kind'⟩ := inside
        obtain rfl := Checked.unique live live'
        obtain rfl := Option.some.inj (kind.symm.trans kind')
        exact at_home

end Erases

theorem Erases.keepsNames (e : ctx.Erases m ctx') : ctx.KeepsNames ctx' where
  tables scope t held := by
    refine .inl ⟨?_, fun s n => e.names held⟩
    cases scope with
    | detached => exact held
    | module n =>
      obtain ⟨r, read, names⟩ := held
      exact ⟨r, (e.module.mp read).1, names⟩
    | function f =>
      obtain ⟨r, read, names⟩ := held
      exact ⟨r, (e.value.mp read).1, names⟩
  proper proper := by
    refine ⟨fun i r stored => ?_, fun i r stored => ?_⟩
    · by_cases gone : ctx.BelongsTo m ⟨ctx.id, i⟩
      · rw [e.entombs.values i gone] at stored
        obtain ⟨old, _, rfl⟩ := Option.map_eq_some_iff.mp stored
        simp [ValueRecord.tombstone]
      · exact proper.values i r ((e.entombs.kept i gone).symm.trans stored)
    · by_cases gone : ctx.BlockBelongsTo m ⟨ctx.id, i⟩
      · rw [e.entombs.blocks i gone] at stored
        obtain ⟨old, known, rfl⟩ := Option.map_eq_some_iff.mp stored
        exact proper.blocks i old known
      · exact proper.blocks i r ((e.entombs.keptBlocks i gone).symm.trans stored)

/-! ### Every request -/

theorem named_new (id : ContextId) : (Context.new id).Named where
  mirrors scope t held := by
    cases scope with
    | detached => exact held.elim
    | module m =>
      obtain ⟨r, read, _⟩ := held
      simp [module_eq_ok, Context.new] at read
    | function f =>
      obtain ⟨r, read, _⟩ := held
      simp [value_eq_ok, Context.new] at read
  proper := ⟨by simp [Context.new], by simp [Context.new]⟩

end Context

open Context

/-- Every request keeps the names in order. -/
theorem Request.staysNamed {ctx ctx' : Context} {request : Request} {answers : List Handle}
    (wf : ctx.WellFormed) (run : (request.run ctx).result = .ok (answers, ctx')) :
    ctx.StaysNamed ctx' := by
  have obeyed {α : Type} {step : Build α} {a : α} (named : step.StaysNamed)
      (run : (step ctx).result = .ok (a, ctx')) : ctx.StaysNamed ctx' := named ctx a ctx' run
  cases request with
  | createModule name =>
    obtain ⟨m, built, rfl⟩ := answer_eq_ok run
    exact Build.createModule_named wf built
  | eraseModule m =>
    obtain ⟨built, rfl⟩ := silent_eq_ok run
    obtain ⟨_, e, _⟩ := Build.eraseModule_spec wf built
    exact e.keepsNames.stays
  | createFunction signature linkage name m =>
    obtain ⟨f, built, rfl⟩ := answer_eq_ok run
    exact Build.createFunction_named wf built
  | createBlock name parent before =>
    obtain ⟨b, built, rfl⟩ := answer_eq_ok run
    exact Build.createBlock_named wf built
  | insertBlock b f before =>
    obtain ⟨built, rfl⟩ := silent_eq_ok run
    exact Build.insertBlock_named wf built
  | voidType | labelType =>
    exact obeyed (.bind (Build.interning_named.internType rfl) fun _ => .pure _) run
  | integerType => exact obeyed (.bind (Build.interning_named.integerType _) fun _ => .pure _) run
  | pointerType => exact obeyed (.bind (Build.interning_named.pointerType _ _) fun _ => .pure _) run
  | arrayType => exact obeyed (.bind (Build.interning_named.arrayType _ _) fun _ => .pure _) run
  | functionType =>
    exact obeyed (.bind (Build.interning_named.functionType _ _ _) fun _ => .pure _) run
  | constantInt => exact obeyed (.bind (Build.interning_named.constantInt _) fun _ => .pure _) run
  | constantSigned =>
    exact obeyed (.bind (Build.interning_named.constantSigned _ _) fun _ => .pure _) run
  | constantBool => exact obeyed (.bind (Build.interning_named.constantBool _) fun _ => .pure _) run
  | constantString =>
    exact obeyed (.bind (Build.interning_named.constantString _ _) fun _ => .pure _) run
  | elementPtr => exact obeyed (.bind (Build.interning_named.elementPtr _ _ _) fun _ => .pure _) run
  | createGlobal => exact obeyed (.bind (Build.createGlobal_named _ _) fun _ => .pure _) run
  | setInitializer => exact obeyed (.bind (Build.setInitializer_named _ _) fun _ => .pure _) run
  | setGlobalLinkage => exact obeyed (.bind (Build.setGlobalLinkage_named _ _) fun _ => .pure _) run
  | globalString => exact obeyed (.bind (Build.globalString_named _ _ _) fun _ => .pure _) run
  | setFunctionLinkage =>
    exact obeyed (.bind (Build.setFunctionLinkage_named _ _) fun _ => .pure _) run
  | setFunctionConvention =>
    exact obeyed (.bind (Build.setFunctionConvention_named _ _) fun _ => .pure _) run
  | setValueName => exact obeyed (.bind (Build.setValueName_named _ _) fun _ => .pure _) run
  | setBlockName => exact obeyed (.bind (Build.setBlockName_named _ _) fun _ => .pure _) run
  | createCall => exact obeyed (.bind (Build.createCall_named _ _ _ _) fun _ => .pure _) run
  | createReturn => exact obeyed (.bind (Build.createReturn_named _ _) fun _ => .pure _) run
  | createBranch => exact obeyed (.bind (Build.createBranch_named _ _) fun _ => .pure _) run
  | createCondBranch => exact obeyed (.bind (Build.createCondBranch_named _ _ _ _) fun _ => .pure _) run
  | setCallConvention => exact obeyed (.bind (Build.setCallConvention_named _ _) fun _ => .pure _) run

theorem World.Reachable.named {w : World} (reachable : w.Reachable) :
    ∀ ctx ∈ w.contexts, ctx.Named :=
  reachable.invariant named_new fun _ _ _ _ wf _ run => Request.staysNamed wf run

/-! ### What is listed under a name -/

namespace Context

variable {ctx : Context} {m : ModuleRef} {mr : ModuleRecord} {f : FunctionRef} {fr : FunctionRecord}
  {s : Symbol} {n : String}

/-- A global or function that a module lists, by its stored name. -/
def ModuleNames (ctx : Context) (mr : ModuleRecord) (n : String) : Symbol → Prop
  | .value v => (⟨v⟩ ∈ mr.globals ∨ ⟨v⟩ ∈ mr.functions) ∧ ctx.valueName v = .ok (some n)
  | .block _ => False

/-- An argument of a function, a block placed in it or an instruction of such a block, by its stored
name. -/
def FunctionNames (ctx : Context) (fr : FunctionRecord) (n : String) : Symbol → Prop
  | .value v => (⟨v⟩ ∈ fr.args ∨ ∃ b ∈ fr.blocks, ∃ br, ctx.block b = .ok br ∧ ⟨v⟩ ∈ br.instructions) ∧
      ctx.valueName v = .ok (some n)
  | .block b => b ∈ fr.blocks ∧ ∃ br, ctx.block b = .ok br ∧ br.name = some n

theorem names_module_iff (wf : ctx.WellFormed) (live : ctx.module m = .ok mr) :
    ctx.Names (.module m) s n ↔ ctx.ModuleNames mr n s := by
  cases s with
  | block b =>
    refine iff_of_false ?_ not_false
    rintro ⟨⟨_, _, _, _, impossible⟩, _⟩
    cases impossible
  | value v =>
    refine and_congr_left fun _ => scoped_value.trans ?_
    constructor
    · rintro (⟨g, known, same⟩ | ⟨f, known, same⟩ | ⟨_, _, impossible⟩ | ⟨_, _, _, _, _, _, impossible⟩)
      · obtain rfl := NameScope.module.inj same
        obtain ⟨mr', live', mem⟩ := wf.global_listed known
        obtain rfl := Checked.unique live live'
        exact .inl mem
      · obtain rfl := NameScope.module.inj same
        obtain ⟨mr', live', mem⟩ := wf.function_listed known
        obtain rfl := Checked.unique live live'
        exact .inr mem
      · cases impossible
      · cases impossible
    · rintro (mem | mem)
      · obtain ⟨g, known, rfl⟩ := wf.module_global live mem
        exact .inl ⟨g, known, rfl⟩
      · obtain ⟨f, known, rfl⟩ := wf.module_function live mem
        exact .inr (.inl ⟨f, known, rfl⟩)

theorem blockIn_function_iff (wf : ctx.WellFormed) (known : ctx.function f = .ok fr) {b : BlockRef} :
    ctx.BlockIn (.function f) b ↔ b ∈ fr.blocks := by
  constructor
  · rintro ⟨br, g, read, parent, same⟩
    obtain rfl := NameScope.function.inj same
    obtain ⟨fr', known', mem⟩ := wf.block_listed read parent
    obtain rfl := Checked.unique known known'
    exact mem
  · intro mem
    obtain ⟨br, read, parent⟩ := wf.function_block known mem
    exact ⟨br, f, read, parent, rfl⟩

theorem names_function_iff (wf : ctx.WellFormed) (known : ctx.function f = .ok fr) :
    ctx.Names (.function f) s n ↔ ctx.FunctionNames fr n s := by
  cases s with
  | block b => exact and_congr (blockIn_function_iff wf known) symbolName_block
  | value v =>
    refine and_congr_left fun _ => scoped_value.trans ?_
    constructor
    · rintro (⟨_, _, impossible⟩ | ⟨_, _, impossible⟩ | ⟨a, live, same⟩ | ⟨i, live, inside⟩)
      · cases impossible
      · cases impossible
      · obtain rfl := NameScope.function.inj same
        obtain ⟨fr', known', mem⟩ := wf.argument_listed live
        obtain rfl := Checked.unique known known'
        exact .inl mem
      · obtain ⟨br, held, mem⟩ := wf.instruction_listed live
        exact .inr ⟨i.parent, (blockIn_function_iff wf known).mp inside, br, held, mem⟩
    · rintro (mem | ⟨b, placed, br, held, mem⟩)
      · obtain ⟨a, live, rfl⟩ := wf.function_argument known mem
        exact .inr (.inr (.inl ⟨a, live, rfl⟩))
      · obtain ⟨i, live, rfl⟩ := wf.block_instruction held mem
        exact .inr (.inr (.inr ⟨i, live, (blockIn_function_iff wf known).mpr placed⟩))

/-- The tables of live modules and functions mirror the names of what is listed in them, and find
it. -/
structure TablesMirror (ctx : Context) : Prop where
  module : ∀ m mr, ctx.module m = .ok mr → ∀ n s,
    mr.names.find? n = some s ↔ ctx.ModuleNames mr n s
  function : ∀ f fr, ctx.function f = .ok fr → ∀ n s,
    fr.names.find? n = some s ↔ ctx.FunctionNames fr n s
  moduleDistinct : ∀ m mr, ctx.module m = .ok mr → ∀ n s s',
    ctx.ModuleNames mr n s → ctx.ModuleNames mr n s' → s = s'
  functionDistinct : ∀ f fr, ctx.function f = .ok fr → ∀ n s s',
    ctx.FunctionNames fr n s → ctx.FunctionNames fr n s' → s = s'
  valueNames : ∀ v, ctx.valueName v ≠ .ok (some "")
  blockNames : ∀ b br, ctx.block b = .ok br → br.name ≠ some ""
  findFunction : ∀ m mr, ctx.module m = .ok mr → ∀ n, ∃ found, ctx.findFunction? m n = .ok found ∧
    ∀ f, found = some f ↔ f ∈ mr.functions ∧ ctx.valueName f.value = .ok (some n)
  findGlobal : ∀ m mr, ctx.module m = .ok mr → ∀ n, ∃ found, ctx.findGlobal? m n = .ok found ∧
    ∀ g, found = some g ↔ g ∈ mr.globals ∧ ctx.valueName g.value = .ok (some n)

theorem findFunction?_exact (wf : ctx.WellFormed) (live : ctx.module m = .ok mr)
    (table : ∀ s, mr.names.find? n = some s ↔ ctx.ModuleNames mr n s) :
    ∃ found, ctx.findFunction? m n = .ok found ∧
      ∀ f, found = some f ↔ f ∈ mr.functions ∧ ctx.valueName f.value = .ok (some n) := by
  have entered (f : FunctionRef) (listed : f ∈ mr.functions ∧ ctx.valueName f.value = .ok (some n)) :
      mr.names.find? n = some (.value f.value) := (table _).mpr ⟨.inr listed.1, listed.2⟩
  unfold findFunction?
  rw [live, Checked.ok_bind]
  cases bound : mr.names.find? n with
  | none =>
    refine ⟨none, rfl, fun f => iff_of_false (by simp) fun listed => ?_⟩
    simp [entered f listed] at bound
  | some s =>
    have named := (table s).mp bound
    cases s with
    | block b => exact named.elim
    | value v =>
      rcases named with ⟨mem | mem, name⟩
      · obtain ⟨g, known, _⟩ := wf.module_global live mem
        obtain ⟨r, read, kind⟩ := global_eq_ok.mp known
        refine ⟨none, by simp [read, kind], fun f => iff_of_false (by simp) fun listed => ?_⟩
        obtain ⟨fr, known', _⟩ := wf.module_function live listed.1
        obtain ⟨r', read', kind'⟩ := function_eq_ok.mp known'
        obtain rfl : f.value = v := by simpa [entered f listed] using bound
        obtain rfl := Checked.unique read read'
        rw [kind] at kind'
        cases kind'
      · obtain ⟨fr, known, _⟩ := wf.module_function live mem
        obtain ⟨r, read, kind⟩ := function_eq_ok.mp known
        refine ⟨some ⟨v⟩, by simp [read, kind], fun f => ?_⟩
        constructor
        · intro same
          obtain rfl := Option.some.inj same
          exact ⟨mem, name⟩
        · intro listed
          obtain rfl : f.value = v := by simpa [entered f listed] using bound
          rfl

theorem findGlobal?_exact (wf : ctx.WellFormed) (live : ctx.module m = .ok mr)
    (table : ∀ s, mr.names.find? n = some s ↔ ctx.ModuleNames mr n s) :
    ∃ found, ctx.findGlobal? m n = .ok found ∧
      ∀ g, found = some g ↔ g ∈ mr.globals ∧ ctx.valueName g.value = .ok (some n) := by
  have entered (g : GlobalRef) (listed : g ∈ mr.globals ∧ ctx.valueName g.value = .ok (some n)) :
      mr.names.find? n = some (.value g.value) := (table _).mpr ⟨.inl listed.1, listed.2⟩
  unfold findGlobal?
  rw [live, Checked.ok_bind]
  cases bound : mr.names.find? n with
  | none =>
    refine ⟨none, rfl, fun g => iff_of_false (by simp) fun listed => ?_⟩
    simp [entered g listed] at bound
  | some s =>
    have named := (table s).mp bound
    cases s with
    | block b => exact named.elim
    | value v =>
      rcases named with ⟨mem | mem, name⟩
      · obtain ⟨gr, known, _⟩ := wf.module_global live mem
        obtain ⟨r, read, kind⟩ := global_eq_ok.mp known
        refine ⟨some ⟨v⟩, by simp [read, kind], fun g => ?_⟩
        constructor
        · intro same
          obtain rfl := Option.some.inj same
          exact ⟨mem, name⟩
        · intro listed
          obtain rfl : g.value = v := by simpa [entered g listed] using bound
          rfl
      · obtain ⟨fr, known, _⟩ := wf.module_function live mem
        obtain ⟨r, read, kind⟩ := function_eq_ok.mp known
        refine ⟨none, by simp [read, kind], fun g => iff_of_false (by simp) fun listed => ?_⟩
        obtain ⟨gr, known', _⟩ := wf.module_global live listed.1
        obtain ⟨r', read', kind'⟩ := global_eq_ok.mp known'
        obtain rfl : g.value = v := by simpa [entered g listed] using bound
        obtain rfl := Checked.unique read read'
        rw [kind] at kind'
        cases kind'

theorem Named.tablesMirror (named : ctx.Named) (wf : ctx.WellFormed) : ctx.TablesMirror := by
  have module m mr (live : ctx.module m = .ok mr) n s :
      mr.names.find? n = some s ↔ ctx.ModuleNames mr n s := by
    rw [named.mirrors (.module m) mr.names ⟨mr, live, rfl⟩, names_module_iff wf live]
    exact and_iff_left not_false
  have function f fr (known : ctx.function f = .ok fr) n s :
      fr.names.find? n = some s ↔ ctx.FunctionNames fr n s := by
    obtain ⟨r, read, kind⟩ := function_eq_ok.mp known
    rw [named.mirrors (.function f) fr.names ⟨r, read, by rw [kind]; rfl⟩, names_function_iff wf known]
    exact and_iff_left not_false
  refine ⟨module, function, ?_, ?_, ?_, ?_, ?_, ?_⟩
  · intro m mr live n s s' here there
    have bound := (module m mr live n s).mpr here
    have bound' := (module m mr live n s').mpr there
    exact Option.some.inj (bound.symm.trans bound')
  · intro f fr known n s s' here there
    have bound := (function f fr known n s).mpr here
    have bound' := (function f fr known n s').mpr there
    exact Option.some.inj (bound.symm.trans bound')
  · intro v name
    obtain ⟨r, read, empty⟩ := valueName_eq_ok.mp name
    exact named.proper.values _ r (value_eq_ok.mp read).2.1 empty
  · intro b br read empty
    exact named.proper.blocks _ br (block_eq_ok.mp read).2.1 empty
  · exact fun m mr live n => findFunction?_exact wf live (module m mr live n)
  · exact fun m mr live n => findGlobal?_exact wf live (module m mr live n)

end Context

namespace World

/-- In every context of a reachable world the name tables mirror the stored names. -/
theorem tables_mirror_names {w : World} (reachable : w.Reachable) :
    ∀ ctx ∈ w.contexts, ctx.TablesMirror := by
  intro ctx mem
  exact (reachable.named ctx mem).tablesMirror (reachable.sound.wellFormed ctx mem)

/-- Two functions of one name, and a call whose name is taken when its block is inserted. -/
def namesakes : World := after [.context, .request 0 (.integerType 32),
  .upcast (.type .any ⟨⟨1⟩, 0⟩), .request 0 (.functionType ⟨⟨1⟩, 0⟩ [] false),
  .request 0 (.createModule "m"),
  .request 0 (.createFunction ⟨⟨⟨1⟩, 1⟩⟩ .external "f" ⟨⟨1⟩, 0⟩),
  .request 0 (.createFunction ⟨⟨⟨1⟩, 1⟩⟩ .external "f" ⟨⟨1⟩, 0⟩),
  .request 0 (.createBlock "x" (some ⟨⟨⟨1⟩, 0⟩⟩) none), .request 0 (.createBlock "late" none none),
  .upcast (.value .any ⟨⟨1⟩, 1⟩),
  .request 0 (.createCall ⟨⟨1⟩, 1⟩ [] "x" ⟨⟨1⟩, 1⟩),
  .request 0 (.insertBlock ⟨⟨1⟩, 1⟩ ⟨⟨⟨1⟩, 0⟩⟩ none)]

theorem namesakes_mirrored : ∃ ctx mr fr, namesakes.contexts[0]? = some ctx ∧
    ctx.module ⟨⟨1⟩, 0⟩ = .ok mr ∧ ctx.function ⟨⟨⟨1⟩, 0⟩⟩ = .ok fr ∧
      mr.names.find? "f.1" = some (.value ⟨⟨1⟩, 1⟩) ∧
        fr.names.find? "x1" = some (.value ⟨⟨1⟩, 2⟩) ∧ ctx.TablesMirror := by
  have computed : (namesakes.contexts[0]?).any (fun ctx : Context =>
      ((ctx.module ⟨⟨1⟩, 0⟩).toOption.any fun mr =>
        mr.names.find? "f.1" = some (.value ⟨⟨1⟩, 1⟩)) ∧
      ((ctx.function ⟨⟨⟨1⟩, 0⟩⟩).toOption.any fun fr =>
        fr.names.find? "x1" = some (.value ⟨⟨1⟩, 2⟩))) = true := by decide +kernel
  obtain ⟨ctx, found, computed⟩ := (Option.any_eq_true _ _).mp computed
  obtain ⟨inModule, inFunction⟩ := of_decide_eq_true computed
  obtain ⟨mr, live, function⟩ := (Option.any_eq_true _ _).mp inModule
  obtain ⟨fr, known, call⟩ := (Option.any_eq_true _ _).mp inFunction
  have mirrored := tables_mirror_names (reachable_after (by decide +kernel)) ctx
    (List.mem_of_getElem? found)
  exact ⟨ctx, mr, fr, found, Checked.toOption_eq_some.mp live, Checked.toOption_eq_some.mp known,
    of_decide_eq_true function, of_decide_eq_true call, mirrored⟩

end World
end ModuleIR
