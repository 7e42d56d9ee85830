import ModuleIR.Build.Modules
import ModuleIR.Proofs.Names.Steps

set_option autoImplicit false

/-!
# Looking up by name

A function or global is looked up in the table of its module, and then by its kind. So a lookup is
answered alike as long as the table binds the name alike, and what it binds stays of its kind.
-/
namespace ModuleIR

namespace Context

variable {ctx ctx' : Context} {m : ModuleRef} {mr mr' : ModuleRecord} {n : String} {v : ValueRef}
  {kind kind' : ValueKind} {α : Type} {view : ValueRef → ValueKind → Option α} {found : Option α}
  {a : α}

/-- What a module binds a name to, as far as it is of the kind that is looked for. -/
def lookup (ctx : Context) (m : ModuleRef) (n : String) (view : ValueRef → ValueKind → Option α) :
    Checked (Option α) := do
  match (← ctx.module m).names.find? n with
  | some (.value v) => return view v (← ctx.value v).kind
  | _ => return none

def asFunction (v : ValueRef) : ValueKind → Option FunctionRef
  | .function _ => some ⟨v⟩
  | _ => none

def asGlobal (v : ValueRef) : ValueKind → Option GlobalRef
  | .global _ => some ⟨v⟩
  | _ => none

theorem asFunction_becomes (step : kind.Becomes kind') : asFunction v kind' = asFunction v kind := by
  cases step <;> rfl

theorem asGlobal_becomes (step : kind.Becomes kind') : asGlobal v kind' = asGlobal v kind := by
  cases step <;> rfl

theorem asFunction_eq_some {f : FunctionRef} (same : asFunction v kind = some f) : v = f.value := by
  cases kind with
  | function => exact congrArg FunctionRef.value (Option.some.inj same)
  | _ => cases same

theorem asGlobal_eq_some {g : GlobalRef} (same : asGlobal v kind = some g) : v = g.value := by
  cases kind with
  | global => exact congrArg GlobalRef.value (Option.some.inj same)
  | _ => cases same

theorem findFunction?_eq_lookup : ctx.findFunction? m n = ctx.lookup m n asFunction := by
  unfold findFunction? lookup
  refine congrArg _ (funext fun mr => ?_)
  cases mr.names.find? n with
  | none => rfl
  | some s =>
    cases s with
    | block b => rfl
    | value v =>
      dsimp only
      refine congrArg _ (funext fun r => ?_)
      cases r.kind <;> rfl

theorem findGlobal?_eq_lookup : ctx.findGlobal? m n = ctx.lookup m n asGlobal := by
  unfold findGlobal? lookup
  refine congrArg _ (funext fun mr => ?_)
  cases mr.names.find? n with
  | none => rfl
  | some s =>
    cases s with
    | block b => rfl
    | value v =>
      dsimp only
      refine congrArg _ (funext fun r => ?_)
      cases r.kind <;> rfl

def Binds (ctx : Context) (m : ModuleRef) (n : String) (v : ValueRef) (kind : ValueKind) : Prop :=
  ∃ mr r, ctx.module m = .ok mr ∧ mr.names.find? n = some (.value v) ∧ ctx.value v = .ok r ∧
    r.kind = kind

theorem Binds.lookup (binds : ctx.Binds m n v kind) : ctx.lookup m n view = .ok (view v kind) := by
  obtain ⟨mr, r, live, bound, read, rfl⟩ := binds
  simp [Context.lookup, live, bound, read]

theorem binds_of_lookup (looked : ctx.lookup m n view = .ok (some a)) :
    ∃ v kind, ctx.Binds m n v kind ∧ view v kind = some a := by
  obtain ⟨mr, live, looked⟩ := Checked.bind_eq_ok.mp looked
  split at looked
  · rename_i v bound
    obtain ⟨r, read, same⟩ := Checked.bind_eq_ok.mp looked
    exact ⟨v, r.kind, ⟨mr, r, live, bound, read, rfl⟩, Except.ok.inj same⟩
  · cases looked

theorem lookup_congr (live : ctx.module m = .ok mr) (live' : ctx'.module m = .ok mr')
    (same : mr'.names.find? n = mr.names.find? n)
    (kept : ∀ v r, ctx.value v = .ok r → ∃ r', ctx'.value v = .ok r' ∧ r.kind.Becomes r'.kind)
    (alike : ∀ v kind kind', kind.Becomes kind' → view v kind' = view v kind)
    (looked : ctx.lookup m n view = .ok found) : ctx'.lookup m n view = .ok found := by
  unfold lookup at looked ⊢
  rw [live, Checked.ok_bind] at looked
  rw [live', Checked.ok_bind, same]
  split at looked
  · rename_i v bound
    obtain ⟨r, read, answered⟩ := Checked.bind_eq_ok.mp looked
    obtain ⟨r', read', step⟩ := kept v r read
    refine Checked.bind_eq_ok.mpr ⟨r', read', ?_⟩
    rw [alike v _ _ step]
    exact answered
  · exact looked

/-- Everything that is alive has the name it had, the tables bind what they bound, and what can be
looked up is found as before. -/
structure SameNames (ctx ctx' : Context) : Prop where
  names : ∀ s name, ctx.symbolName s = .ok name → ctx'.symbolName s = .ok name
  tables : ∀ scope t, ctx.TableOf t scope →
    ∃ t', ctx'.TableOf t' scope ∧ ∀ n, t'.find? n = t.find? n
  functions : ∀ m n found, ctx.findFunction? m n = .ok found → ctx'.findFunction? m n = .ok found
  globals : ∀ m n found, ctx.findGlobal? m n = .ok found → ctx'.findGlobal? m n = .ok found

theorem tableOf_function {f : FunctionRef} {fr : FunctionRecord} (known : ctx.function f = .ok fr) :
    ctx.TableOf fr.names (.function f) := by
  obtain ⟨r, read, kind⟩ := function_eq_ok.mp known
  exact ⟨r, read, by rw [kind]; rfl⟩

theorem Grows.tableOf (g : ctx.Grows ctx') {t : NameTable} {scope : NameScope}
    (held : ctx.TableOf t scope) : ∃ t', ctx'.TableOf t' scope := by
  cases scope with
  | detached => exact held.elim
  | module m =>
    obtain ⟨mr, live, _⟩ := held
    obtain ⟨mr', live', _⟩ := g.module live
    exact ⟨mr'.names, mr', live', rfl⟩
  | function f =>
    obtain ⟨r, read, names⟩ := held
    obtain ⟨fr, kind, _⟩ := function_of_names? names
    obtain ⟨fr', known', _⟩ := g.function (function_eq_ok.mpr ⟨r, read, kind⟩)
    exact ⟨fr'.names, tableOf_function known'⟩

/-- Where the tables mirror the names, names that are as they were are bound and found as they
were. -/
theorem Named.sameNames (named : ctx.Named) (named' : ctx'.Named) (g : ctx.Grows ctx')
    (names : ∀ s name, ctx.symbolName s = .ok name → ctx'.symbolName s = .ok name)
    (same : ∀ scope s n, ctx'.Names scope s n ↔ ctx.Names scope s n) : ctx.SameNames ctx' := by
  have bound {scope : NameScope} {t t' : NameTable} (held : ctx.TableOf t scope)
      (held' : ctx'.TableOf t' scope) (n : String) : t'.find? n = t.find? n := by
    refine Option.ext fun s => ?_
    rw [named.mirrors scope t held n s, named'.mirrors scope t' held' n s, same]
  have looked {β : Type} {view : ValueRef → ValueKind → Option β} (m : ModuleRef) (n : String)
      (found : Option β) (alike : ∀ v kind kind', kind.Becomes kind' → view v kind' = view v kind)
      (answered : ctx.lookup m n view = .ok found) : ctx'.lookup m n view = .ok found := by
    obtain ⟨mr, live, _⟩ := Checked.bind_eq_ok.mp answered
    obtain ⟨mr', live', _⟩ := g.module live
    refine lookup_congr live live' ?_ (fun v r read => ?_) alike answered
    · have held : ctx.TableOf mr.names (.module m) := ⟨mr, live, rfl⟩
      exact bound held ⟨mr', live', rfl⟩ n
    · obtain ⟨r', read', _, step⟩ := g.value read
      exact ⟨r', read', step⟩
  refine ⟨names, fun scope t held => ?_, fun m n found => ?_, fun m n found => ?_⟩
  · obtain ⟨t', held'⟩ := g.tableOf held
    exact ⟨t', held', bound held held'⟩
  · rw [findFunction?_eq_lookup, findFunction?_eq_lookup]
    exact looked m n found fun _ _ _ => asFunction_becomes
  · rw [findGlobal?_eq_lookup, findGlobal?_eq_lookup]
    exact looked m n found fun _ _ _ => asGlobal_becomes

end Context
end ModuleIR
