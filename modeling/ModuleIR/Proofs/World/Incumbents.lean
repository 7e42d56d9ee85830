import ModuleIR.Proofs.Names.Entering
import ModuleIR.Proofs.World.Naming

set_option autoImplicit false

/-!
# The incumbent keeps its name

Where a name is asked for that is taken, the newcomer gets another one. A request names what it is
about, and whatever else is alive keeps its name. So a function or global that is found under a name
is found under it until it is renamed itself or its module is erased, whatever else is done in the
meantime, in its context and in others.
-/
namespace ModuleIR

open Context

variable {ctx ctx' : Context} {request : Request} {answers : List Handle}

/-! ### One request -/

/-- The symbols whose names a request is about: what it names, the block that it inserts with its
instructions, and what it erases. -/
def Request.Concerns (ctx : Context) : Request → Symbol → Prop
  | setValueName v _, s => s = .value v
  | setBlockName b _, s => s = .block b
  | insertBlock b _ _, s => ctx.Inside b s
  | eraseModule m, s => ctx.SymbolBelongsTo m s
  | _, _ => False

/-- A request that succeeds names nothing but what it is about, and what it makes. -/
theorem Request.namesOnly (wf : ctx.WellFormed) (solid : ctx.Solid)
    (run : (request.run ctx).result = .ok (answers, ctx')) :
    ctx.NamesOnly (request.Concerns ctx) ctx' := by
  have obeyed {α : Type} {step : Build α} {a : α} (named : step.NamesNone)
      (run : (step ctx).result = .ok (a, ctx')) : ctx.NamesNone ctx' := named ctx a ctx' run
  cases request with
  | setValueName v name =>
    obtain ⟨built, rfl⟩ := silent_eq_ok run
    exact Build.setValueName_namesOnly _ _ _ _ _ built
  | setBlockName b name =>
    obtain ⟨built, rfl⟩ := silent_eq_ok run
    exact Build.setBlockName_namesOnly _ _ _ _ _ built
  | insertBlock b f before =>
    obtain ⟨built, rfl⟩ := silent_eq_ok run
    exact Build.insertBlock_namesOnly wf solid built
  | eraseModule m =>
    obtain ⟨built, rfl⟩ := silent_eq_ok run
    obtain ⟨_, e, _⟩ := Build.eraseModule_spec wf built
    exact e.namesOnly
  | createGlobal m spec =>
    obtain ⟨g, built, rfl⟩ := answer_eq_ok run
    exact Build.createGlobal_namesNone wf built
  | globalString m text name =>
    obtain ⟨c, built, rfl⟩ := answer_eq_ok run
    exact Build.globalString_namesNone wf built
  | createFunction signature linkage name m =>
    obtain ⟨f, built, rfl⟩ := answer_eq_ok run
    exact Build.createFunction_namesNone wf built
  | createBlock name parent before =>
    obtain ⟨b, built, rfl⟩ := answer_eq_ok run
    exact Build.createBlock_namesNone wf solid built
  | createModule => exact obeyed (.bind (Build.createModule_namesNone _) fun _ => .pure _) run
  | voidType | labelType =>
    exact obeyed (.bind (Build.interning_namesNone.internType rfl) fun _ => .pure _) run
  | integerType =>
    exact obeyed (.bind (Build.interning_namesNone.integerType _) fun _ => .pure _) run
  | pointerType =>
    exact obeyed (.bind (Build.interning_namesNone.pointerType _ _) fun _ => .pure _) run
  | arrayType =>
    exact obeyed (.bind (Build.interning_namesNone.arrayType _ _) fun _ => .pure _) run
  | functionType =>
    exact obeyed (.bind (Build.interning_namesNone.functionType _ _ _) fun _ => .pure _) run
  | constantInt =>
    exact obeyed (.bind (Build.interning_namesNone.constantInt _) fun _ => .pure _) run
  | constantSigned =>
    exact obeyed (.bind (Build.interning_namesNone.constantSigned _ _) fun _ => .pure _) run
  | constantBool =>
    exact obeyed (.bind (Build.interning_namesNone.constantBool _) fun _ => .pure _) run
  | constantString =>
    exact obeyed (.bind (Build.interning_namesNone.constantString _ _) fun _ => .pure _) run
  | elementPtr =>
    exact obeyed (.bind (Build.interning_namesNone.elementPtr _ _ _) fun _ => .pure _) run
  | setInitializer =>
    exact obeyed (.bind (Build.setInitializer_namesNone _ _) fun _ => .pure _) run
  | setGlobalLinkage =>
    exact obeyed (.bind (Build.modifyGlobal_namesNone _ _) fun _ => .pure _) run
  | setFunctionLinkage | setFunctionConvention =>
    exact obeyed (.bind (Build.modifyFunction_namesNone _ _) fun _ => .pure _) run
  | createCall => exact obeyed (.bind (Build.createCall_namesNone _ _ _ _) fun _ => .pure _) run
  | createReturn => exact obeyed (.bind (Build.createReturn_namesNone _ _) fun _ => .pure _) run
  | createBranch => exact obeyed (.bind (Build.createBranch_namesNone _ _) fun _ => .pure _) run
  | createCondBranch =>
    exact obeyed (.bind (Build.createCondBranch_namesNone _ _ _ _) fun _ => .pure _) run
  | setCallConvention =>
    exact obeyed (.bind (Build.setCallConvention_namesNone _ _) fun _ => .pure _) run

theorem Context.solid_new (id : ContextId) : (Context.new id).Solid := by
  intro s n live
  cases s with
  | block b => trivial
  | value v =>
    obtain ⟨r, read, _⟩ := valueName_eq_ok.mp live
    simp [value_eq_ok, Context.new] at read

theorem World.Reachable.solid {w : World} (reachable : w.Reachable) :
    ∀ ctx ∈ w.contexts, ctx.Named ∧ ctx.Solid :=
  reachable.invariant (fun id => ⟨named_new id, solid_new id⟩) fun _ _ _ _ wf _ run good =>
    ⟨Request.staysNamed wf run good.1, (Request.namesOnly wf good.2 run).solid good.2⟩

/-! ### A binding lasts -/

section Binding

variable {m : ModuleRef} {n : String} {v : ValueRef} {kind : ValueKind}

theorem ValueKind.Becomes.home {k k' : ValueKind} (step : k.Becomes k') : k'.home = k.home := by
  cases step with
  | same => rfl
  | global module | function module => simp [ValueKind.home, module]
  | instruction parent => simp [ValueKind.home, parent]

theorem Context.Binds.home (named : ctx.Named) (binds : ctx.Binds m n v kind) :
    ctx.symbolName (.value v) = .ok (some n) ∧ kind.home = some (.table (.module m)) := by
  obtain ⟨mr, r, live, bound, read, rfl⟩ := binds
  obtain ⟨⟨⟨r', home, read', same, inside⟩, called⟩, _⟩ :=
    (named.mirrors (.module m) mr.names ⟨mr, live, rfl⟩ n (.value v)).mp bound
  obtain rfl := Checked.unique read read'
  refine ⟨called, ?_⟩
  cases home with
  | table scope =>
    obtain rfl : NameScope.module m = scope := inside
    exact same
  | block b =>
    obtain ⟨_, _, _, _, impossible⟩ := inside
    cases impossible

/-- A request that neither renames a value nor erases its module leaves it bound, to content of its
kind. -/
theorem Request.binds (wf : ctx.WellFormed) (named : ctx.Named) (solid : ctx.Solid)
    (admitted : ∀ h ∈ request.handles, ctx.Admits h)
    (run : (request.run ctx).result = .ok (answers, ctx')) (binds : ctx.Binds m n v kind)
    (renamed : ∀ name, request ≠ .setValueName v name) (erased : request ≠ .eraseModule m) :
    ∃ kind', kind.Becomes kind' ∧ ctx'.Binds m n v kind' := by
  obtain ⟨effect, _, _⟩ := Request.effect wf admitted run
  obtain ⟨called, home⟩ := binds.home named
  obtain ⟨mr, r, live, bound, read, rfl⟩ := binds
  rcases effect.grows_or_erases with grows | ⟨m', rfl, e⟩
  · obtain ⟨mr', live', _⟩ := grows.module live
    obtain ⟨r', read', _, step⟩ := grows.value read
    have other : ¬request.Concerns ctx (.value v) := by
      cases request with
      | setValueName u name =>
        intro same
        obtain rfl := Symbol.value.inj same
        exact renamed name rfl
      | setBlockName b name => simp [Request.Concerns]
      | insertBlock b f before =>
        rintro ⟨again, read'', inside⟩
        obtain rfl := Checked.unique read read''
        rw [home] at inside
        cases inside
      | eraseModule m' =>
        have e : ctx.Erases m' ctx' := effect
        exact (e.value.mp read').2
      | _ => exact not_false
    have called' := (Request.namesOnly wf solid run).kept _ _ called other
    have here : ctx'.Scoped (.module m) (.value v) := ⟨r', _, read', step.home.trans home, rfl⟩
    have bound' := ((Request.staysNamed wf run named).mirrors (.module m) mr'.names
      ⟨mr', live', rfl⟩ n (.value v)).mpr ⟨⟨here, called'⟩, not_false⟩
    exact ⟨r'.kind, step, mr', r', live', bound', read', rfl⟩
  · have live' : ctx'.module m = .ok mr := e.module.mpr ⟨live, fun same => erased (by rw [same])⟩
    have held : ctx'.TableOf mr.names (.module m) := ⟨mr, live', rfl⟩
    have survives : ¬ctx.BelongsTo m' v := e.value_survives held ⟨r, _, read, home, rfl⟩
    exact ⟨r.kind, .same _, mr, r, live', bound, e.value.mpr ⟨read, survives⟩, rfl⟩

end Binding

namespace World

/-- One public operation that is not one of the requests that are left out. -/
inductive StepWithout (out : Request → Prop) (w : World) : World → Prop
  | context : StepWithout out w { w with contexts := w.contexts ++ [.new ⟨w.contexts.length + 1⟩] }
  | request {k : Nat} {ctx ctx' : Context} {request : Request} {answers : List Handle}
      (found : w.contexts[k]? = some ctx) (known : ∀ h ∈ request.handles, h ∈ w.handles)
      (run : (request.run ctx).result = .ok (answers, ctx')) (inside : ¬out request) :
      StepWithout out w { contexts := w.contexts.set k ctx', handles := w.handles ++ answers }
  | access {k : Nat} {ctx : Context} {h h' : Handle} (found : w.contexts[k]? = some ctx)
      (known : h ∈ w.handles) (yields : ctx.Yields h h') :
      StepWithout out w { w with handles := w.handles ++ [h'] }
  | liveModule {k : Nat} {ctx : Context} {m : ModuleRef} (found : w.contexts[k]? = some ctx)
      (live : m ∈ ctx.liveModules) : StepWithout out w { w with handles := w.handles ++ [.module m] }

section Steps

variable {w w' : World} {out : Request → Prop} {k : Nat}

theorem StepWithout.step (step : w.StepWithout out w') : w.Step w' := by
  cases step with
  | context => exact .context
  | request found known run _ => exact .request found known run
  | access found known yields => exact .access found known yields
  | liveModule found live => exact .liveModule found live

theorem kept_of_steps {P : Context → Prop}
    (kept : ∀ {w : World} {ctx ctx' : Context} {request : Request} {answers : List Handle},
      w.Reachable → ctx ∈ w.contexts → (∀ h ∈ request.handles, h ∈ w.handles) →
      (request.run ctx).result = .ok (answers, ctx') → ¬out request → P ctx → P ctx')
    (reachable : w.Reachable) (steps : Relation.ReflTransGen (StepWithout out) w w')
    (found : w.contexts[k]? = some ctx) (start : P ctx) :
    w'.Reachable ∧ ∃ ctx', w'.contexts[k]? = some ctx' ∧ P ctx' := by
  induction steps with
  | refl => exact ⟨reachable, ctx, found, start⟩
  | tail _ step ih =>
    obtain ⟨reachable', mid, found', held⟩ := ih
    refine ⟨reachable'.step step.step, ?_⟩
    have inside := (List.getElem?_eq_some_iff.mp found').1
    cases step with
    | context => exact ⟨mid, by rw [List.getElem?_append_left inside, found'], held⟩
    | @request j c c' asked answers found'' known run allowed =>
      by_cases same : j = k
      · subst same
        obtain rfl := Option.some.inj (found'.symm.trans found'')
        exact ⟨c', List.getElem?_set_self inside,
          kept reachable' (List.mem_of_getElem? found') known run allowed held⟩
      · exact ⟨mid, by rw [List.getElem?_set_ne same, found'], held⟩
    | access => exact ⟨mid, found', held⟩
    | liveModule => exact ⟨mid, found', held⟩

def Ends (m : ModuleRef) (v : ValueRef) (request : Request) : Prop :=
  request = .eraseModule m ∨ ∃ name, request = .setValueName v name

theorem lookup_of_steps {α : Type} (view : ValueRef → ValueKind → Option α) {m : ModuleRef}
    {n : String} {a : α} {v : ValueRef}
    (alike : ∀ {v kind kind'}, kind.Becomes kind' → view v kind' = view v kind)
    (handle : ∀ {u kind}, view u kind = some a → u = v) (reachable : w.Reachable)
    (found : w.contexts[k]? = some ctx) (looked : ctx.lookup m n view = .ok (some a))
    (steps : Relation.ReflTransGen (StepWithout (Ends m v)) w w') :
    ∃ ctx', w'.contexts[k]? = some ctx' ∧ ctx'.lookup m n view = .ok (some a) := by
  obtain ⟨u, kind, binds, seen⟩ := binds_of_lookup looked
  obtain rfl := handle seen
  obtain ⟨_, ctx', found', kind', step, binds'⟩ := kept_of_steps
    (P := fun c => ∃ kind', kind.Becomes kind' ∧ c.Binds m n u kind')
    (fun reachable mem known run stays ⟨_, step, binds⟩ => by
      have sound := reachable.sound
      obtain ⟨named, solid⟩ := reachable.solid _ mem
      obtain ⟨kind', step', binds'⟩ := Request.binds (sound.wellFormed _ mem) named solid
        (sound.admits_known mem known) run binds (fun name same => stays (.inr ⟨name, same⟩))
        (fun same => stays (.inl same))
      exact ⟨kind', step.trans step', binds'⟩)
    reachable steps found ⟨kind, .same _, binds⟩
  exact ⟨ctx', found', by rw [binds'.lookup, alike step, seen]⟩

end Steps

/-- Whatever is done in a world, what has a name keeps it against newcomers. -/
structure KeepsIncumbents (w : World) : Prop where
  /-- A request renames nothing but what it is about. -/
  names : ∀ (k : Nat) ctx (request : Request) answers ctx', w.contexts[k]? = some ctx →
    (∀ h ∈ request.handles, h ∈ w.handles) → (request.run ctx).result = .ok (answers, ctx') →
    ∀ s name, ctx.symbolName s = .ok name → ¬request.Concerns ctx s →
      ctx'.symbolName s = .ok name
  /-- What an erased module had is no longer there to have a name. -/
  erased : ∀ (k : Nat) ctx m answers ctx', w.contexts[k]? = some ctx →
    ((Request.eraseModule m).run ctx).result = .ok (answers, ctx') →
    ∀ s name, ctx.SymbolBelongsTo m s → ctx'.symbolName s ≠ .ok name
  /-- No request renames a module. -/
  modules : ∀ (k : Nat) ctx (request : Request) answers ctx', w.contexts[k]? = some ctx →
    (∀ h ∈ request.handles, h ∈ w.handles) → (request.run ctx).result = .ok (answers, ctx') →
    ∀ m mr, ctx.module m = .ok mr → request ≠ .eraseModule m →
      ∃ mr', ctx'.module m = .ok mr' ∧ mr'.name = mr.name
  /-- A function that is found is found until it is renamed or its module is erased. -/
  functions : ∀ (k : Nat) ctx m n f, w.contexts[k]? = some ctx →
    ctx.findFunction? m n = .ok (some f) →
    ∀ later, Relation.ReflTransGen (StepWithout (Ends m f.value)) w later →
      ∃ ctx', later.contexts[k]? = some ctx' ∧ ctx'.findFunction? m n = .ok (some f)
  /-- A global that is found is found until it is renamed or its module is erased. -/
  globals : ∀ (k : Nat) ctx m n g, w.contexts[k]? = some ctx →
    ctx.findGlobal? m n = .ok (some g) →
    ∀ later, Relation.ReflTransGen (StepWithout (Ends m g.value)) w later →
      ∃ ctx', later.contexts[k]? = some ctx' ∧ ctx'.findGlobal? m n = .ok (some g)
  /-- A value that is renamed to the name it has changes no name and no lookup. -/
  ownValue : ∀ (k : Nat) ctx v r, w.contexts[k]? = some ctx → ctx.value v = .ok r →
    r.kind.home ≠ none →
    ∃ ctx', ((Request.setValueName v (r.name.getD "")).run ctx).result = .ok ([], ctx') ∧
      ctx.SameNames ctx'
  /-- A block that is renamed to the name it has changes no name and no lookup. -/
  ownBlock : ∀ (k : Nat) ctx b br, w.contexts[k]? = some ctx → ctx.block b = .ok br →
    ∃ ctx', ((Request.setBlockName b (br.name.getD "")).run ctx).result = .ok ([], ctx') ∧
      ctx.SameNames ctx'
  /-- Of the names that an inserted block brings, in order, each is kept that is free in its turn:
  bound in the function before, and got by no symbol ahead. -/
  inserted : ∀ (k : Nat) ctx b f before answers ctx', w.contexts[k]? = some ctx →
    ((Request.insertBlock b f before).run ctx).result = .ok (answers, ctx') →
    ∃ br fr position, ctx.block b = .ok br ∧ ctx.function f = .ok fr ∧
      ctx.blockPosition f before = .ok position ∧
      ∀ earlier s later, Build.entrants b br.instructions = earlier ++ s :: later →
        ∃ turn now, (Build.adoptAll f earlier (ctx.placeBlock b f position)).result = .ok ((), turn) ∧
          (Build.adoptAll f (s :: later) turn).result = .ok ((), ctx') ∧
          turn.function f = .ok now ∧
          (∀ n x, now.names.find? n = some x ↔
            fr.names.find? n = some x ∨ (x ∈ earlier ∧ ctx'.symbolName x = .ok (some n))) ∧
          ∀ n, ctx.symbolName s = .ok (some n) → now.names.find? n = none →
            ctx'.symbolName s = .ok (some n)

theorem incumbents_keep_names {w : World} (reachable : w.Reachable) : w.KeepsIncumbents := by
  have sound := reachable.sound
  refine ⟨?_, ?_, ?_, ?_, ?_, ?_, ?_, ?_⟩
  · intro k ctx request answers ctx' found _ run s name live others
    have mem := List.mem_of_getElem? found
    exact (Request.namesOnly (sound.wellFormed ctx mem) (reachable.solid ctx mem).2 run).kept s name
      live others
  · intro k ctx m answers ctx' found run s name belongs
    obtain ⟨built, _⟩ := Request.silent_eq_ok run
    obtain ⟨_, e, _⟩ := Build.eraseModule_spec (sound.wellFormed ctx (List.mem_of_getElem? found)) built
    exact e.symbolName_ne belongs
  · intro k ctx request answers ctx' found known run m mr live other
    have mem := List.mem_of_getElem? found
    obtain ⟨effect, _, _⟩ :=
      Request.effect (sound.wellFormed ctx mem) (sound.admits_known mem known) run
    rcases effect.grows_or_erases with grows | ⟨m', rfl, e⟩
    · obtain ⟨mr', live', step⟩ := grows.module live
      exact ⟨mr', live', step.name⟩
    · exact ⟨mr, e.module.mpr ⟨live, fun same => other (by rw [same])⟩, rfl⟩
  · intro k ctx m n f found looked later steps
    rw [findFunction?_eq_lookup] at looked
    obtain ⟨ctx', found', looked'⟩ := lookup_of_steps asFunction asFunction_becomes
      asFunction_eq_some reachable found looked steps
    exact ⟨ctx', found', findFunction?_eq_lookup.trans looked'⟩
  · intro k ctx m n g found looked later steps
    rw [findGlobal?_eq_lookup] at looked
    obtain ⟨ctx', found', looked'⟩ := lookup_of_steps asGlobal asGlobal_becomes
      asGlobal_eq_some reachable found looked steps
    exact ⟨ctx', found', findGlobal?_eq_lookup.trans looked'⟩
  · intro k ctx v r found read home
    have mem := List.mem_of_getElem? found
    obtain ⟨named, solid⟩ := reachable.solid ctx mem
    obtain ⟨ctx', run, same⟩ :=
      Build.setValueName_own (sound.wellFormed ctx mem) named solid read home
    exact ⟨ctx', Build.bind_eq_ok.mpr ⟨(), ctx', run, rfl⟩, same⟩
  · intro k ctx b br found read
    have mem := List.mem_of_getElem? found
    obtain ⟨ctx', run, same⟩ :=
      Build.setBlockName_own (sound.wellFormed ctx mem) (reachable.named ctx mem) read
    exact ⟨ctx', Build.bind_eq_ok.mpr ⟨(), ctx', run, rfl⟩, same⟩
  · intro k ctx b f before answers ctx' found run
    have mem := List.mem_of_getElem? found
    obtain ⟨named, solid⟩ := reachable.solid ctx mem
    obtain ⟨built, _⟩ := Request.silent_eq_ok run
    exact Build.insertBlock_turns (sound.wellFormed ctx mem) named solid built

/-- Two functions that were to have one name, a block of the first, and a detached block that brings
a name of its own and one that is taken. -/
def crowded : World := after [.context, .request 0 (.integerType 32),
  .upcast (.type .any ⟨⟨1⟩, 0⟩), .request 0 (.functionType ⟨⟨1⟩, 0⟩ [] false),
  .request 0 (.createModule "m"),
  .request 0 (.createFunction ⟨⟨⟨1⟩, 1⟩⟩ .external "f" ⟨⟨1⟩, 0⟩),
  .request 0 (.createFunction ⟨⟨⟨1⟩, 1⟩⟩ .external "f" ⟨⟨1⟩, 0⟩),
  .request 0 (.createBlock "x" (some ⟨⟨⟨1⟩, 0⟩⟩) none), .request 0 (.createBlock "late" none none),
  .upcast (.value .any ⟨⟨1⟩, 1⟩),
  .request 0 (.createCall ⟨⟨1⟩, 1⟩ [] "x" ⟨⟨1⟩, 1⟩)]

/-- When the block is inserted, it keeps its name, its call makes way for the block that is there, and
the first function is found as before. -/
theorem crowded_incumbents : ∃ ctx ctx', crowded.contexts[0]? = some ctx ∧
    ((Request.insertBlock ⟨⟨1⟩, 1⟩ ⟨⟨⟨1⟩, 0⟩⟩ none).run ctx).result = .ok ([], ctx') ∧
      ctx'.symbolName (.block ⟨⟨1⟩, 0⟩) = .ok (some "x") ∧
      ctx'.symbolName (.block ⟨⟨1⟩, 1⟩) = .ok (some "late") ∧
      ctx'.symbolName (.value ⟨⟨1⟩, 2⟩) = .ok (some "x1") ∧
      ctx'.findFunction? ⟨⟨1⟩, 0⟩ "f" = .ok (some ⟨⟨⟨1⟩, 0⟩⟩) := by
  have computed : (crowded.contexts[0]?).any (fun ctx : Context =>
      ctx.symbolName (.block ⟨⟨1⟩, 0⟩) = .ok (some "x") ∧
      ctx.symbolName (.block ⟨⟨1⟩, 1⟩) = .ok (some "late") ∧
      ctx.findFunction? ⟨⟨1⟩, 0⟩ "f" = .ok (some ⟨⟨⟨1⟩, 0⟩⟩) ∧
      (ctx.function ⟨⟨⟨1⟩, 0⟩⟩).toOption.any (fun fr => fr.names.find? "late" = none) ∧
      (((Request.insertBlock ⟨⟨1⟩, 1⟩ ⟨⟨⟨1⟩, 0⟩⟩ none).run ctx).result.toOption.any fun done =>
        done.1 = [] ∧ done.2.symbolName (.value ⟨⟨1⟩, 2⟩) = .ok (some "x1"))) = true := by
    decide +kernel
  obtain ⟨ctx, found, computed⟩ := (Option.any_eq_true _ _).mp computed
  obtain ⟨first, late, looked, free, inserted⟩ := of_decide_eq_true computed
  obtain ⟨⟨answers, ctx'⟩, run, inserted⟩ := (Option.any_eq_true _ _).mp inserted
  obtain ⟨rfl, call⟩ := of_decide_eq_true inserted
  have run := Checked.toOption_eq_some.mp run
  have known : ∀ h ∈ (Request.insertBlock ⟨⟨1⟩, 1⟩ ⟨⟨⟨1⟩, 0⟩⟩ none).handles, h ∈ crowded.handles := by
    decide +kernel
  have keeps := incumbents_keep_names (w := crowded) (reachable_after (by decide +kernel))
  have inside := (List.getElem?_eq_some_iff.mp found).1
  refine ⟨ctx, ctx', found, run, ?_, ?_, call, ?_⟩
  · have other : (⟨⟨1⟩, 0⟩ : BlockRef) ≠ ⟨⟨1⟩, 1⟩ := by decide
    exact keeps.names 0 ctx _ _ _ found known run _ _ first other
  · obtain ⟨br, fr, _, _, held, _, turns⟩ := keeps.inserted 0 ctx _ _ _ _ _ found run
    obtain ⟨_, now, _, _, _, bound, kept⟩ := turns [] _ _ rfl
    obtain ⟨fr', held', free⟩ := (Option.any_eq_true _ _).mp free
    obtain rfl := Checked.unique held (Checked.toOption_eq_some.mp held')
    refine kept "late" late (Option.eq_none_iff_forall_ne_some.mpr fun x taken => ?_)
    rcases (bound "late" x).mp taken with before | ⟨ahead, _⟩
    · rw [of_decide_eq_true free] at before
      cases before
    · cases ahead
  · have stays : ¬Ends ⟨⟨1⟩, 0⟩ ⟨⟨1⟩, 0⟩ (.insertBlock ⟨⟨1⟩, 1⟩ ⟨⟨⟨1⟩, 0⟩⟩ none) := by
      simp [Ends]
    generalize crowded = w at found known keeps inside
    obtain ⟨later, found', looked'⟩ := keeps.functions 0 ctx _ _ _ found looked _
      (.single (.request found known run stays))
    obtain rfl : ctx' = later :=
      Option.some.inj ((List.getElem?_set_self inside).symm.trans found')
    exact looked'

end World
end ModuleIR
