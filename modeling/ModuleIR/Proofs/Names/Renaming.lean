import ModuleIR.Proofs.Names.Mirror

set_option autoImplicit false

/-!
# Renaming

A renaming replaces the table of the scope and the name in the record of the symbol. Neither moves
anything to another scope, so that what a table gives out can be compared with what the records say:
`Mirrors.rename` shows that a symbol that is renamed by `NameTable.rebind` is settled.
-/
namespace ModuleIR

namespace Context

variable {ctx ctx' : Context} {pending : Symbol → Prop} {scope scope' : NameScope} {s x : Symbol}
  {n : String} {v : ValueRef} {b : BlockRef} {t t' : NameTable} {old bound : Option String}

/-! ### A table is replaced -/

def setTable (ctx : Context) (names : NameTable) : NameScope → Context
  | .module m => ctx.modifyModule m ({ · with names })
  | .function f => ctx.modifyFunction f ({ · with names })
  | .detached => ctx

theorem function_of_names? {k : ValueKind} (names : k.names? = some t) :
    ∃ fr, k = .function fr ∧ fr.names = t := by
  cases k with
  | function fr => exact ⟨fr, rfl, Option.some.inj names⟩
  | _ => cases names

theorem value_setTable (held : ctx.TableOf t scope) {r : ValueRecord}
    (read : ctx.value v = .ok r) :
    ∃ r', (ctx.setTable t' scope).value v = .ok r' ∧ r'.name = r.name ∧
      r'.kind.home = r.kind.home := by
  cases scope with
  | detached => exact held.elim
  | module m => exact ⟨r, read, rfl, rfl⟩
  | function f =>
    obtain ⟨fr, live, names⟩ := held
    obtain ⟨_, kind, _⟩ := function_of_names? names
    by_cases same : v = f.value
    · subst same
      obtain rfl := Checked.unique live read
      refine ⟨_, (value_modifyFunction live kind).mpr (.inl ⟨rfl, rfl⟩), rfl, ?_⟩
      rw [kind]
      rfl
    · exact ⟨r, (value_modifyFunction live kind).mpr (.inr ⟨same, read⟩), rfl, rfl⟩

theorem value_of_setTable (held : ctx.TableOf t scope) {r' : ValueRecord}
    (read' : (ctx.setTable t' scope).value v = .ok r') :
    ∃ r, ctx.value v = .ok r ∧ r.name = r'.name ∧ r.kind.home = r'.kind.home := by
  have live : ∃ r, ctx.value v = .ok r := by
    cases scope with
    | detached => exact held.elim
    | module m => exact ⟨r', read'⟩
    | function f =>
      obtain ⟨fr, live, names⟩ := held
      obtain ⟨_, kind, _⟩ := function_of_names? names
      rcases (value_modifyFunction live kind).mp read' with ⟨rfl, _⟩ | ⟨_, kept⟩
      · exact ⟨fr, live⟩
      · exact ⟨r', kept⟩
  obtain ⟨r, read⟩ := live
  obtain ⟨same, read'', name, home⟩ : ∃ r', (ctx.setTable t' scope).value v = .ok r' ∧
    r'.name = r.name ∧ r'.kind.home = r.kind.home := value_setTable held read
  obtain rfl := Checked.unique read' read''
  exact ⟨r, read, name.symm, home.symm⟩

theorem block_setTable : (ctx.setTable t' scope).block b = ctx.block b := by
  cases scope <;> rfl

theorem setTable_keepsHomes (held : ctx.TableOf t scope) :
    ctx.KeepsHomes (ctx.setTable t' scope) where
  values v r read := by
    obtain ⟨r', read', _, home⟩ := value_setTable held read
    exact ⟨r', read', home⟩
  blocks b r read := ⟨r, block_setTable.trans read, rfl⟩

theorem symbolName_setTable (held : ctx.TableOf t scope) (live : ctx.symbolName s = .ok old) :
    (ctx.setTable t' scope).symbolName s = .ok old := by
  cases s with
  | block b =>
    obtain ⟨r, read, name⟩ := symbolName_block.mp live
    exact symbolName_block.mpr ⟨r, block_setTable.trans read, name⟩
  | value v =>
    obtain ⟨r, read, name⟩ := valueName_eq_ok.mp live
    obtain ⟨r', read', same, _⟩ := value_setTable held read
    exact valueName_eq_ok.mpr ⟨r', read', same.trans name⟩

theorem names_setTable (held : ctx.TableOf t scope) :
    (ctx.setTable t' scope).Names scope' s n ↔ ctx.Names scope' s n := by
  constructor
  · intro named
    refine named.of_records (fun v r' _ read' name => ?_) (fun b r' f _ read' parent => ?_)
    · obtain ⟨r, read, name', home⟩ := value_of_setTable held read'
      exact ⟨r, read, name'.trans name, home⟩
    · exact ⟨r', block_setTable.symm.trans read', rfl, parent⟩
  · intro named
    refine named.of_records (fun v r _ read name => ?_) (fun b r f _ read parent => ?_)
    · obtain ⟨r', read', name', home⟩ := value_setTable held read
      exact ⟨r', read', name'.trans name, home⟩
    · exact ⟨r, block_setTable.trans read, rfl, parent⟩

theorem tableOf_setTable (held : ctx.TableOf t scope) {u : NameTable} :
    (ctx.setTable t' scope).TableOf u scope' →
      (scope' = scope ∧ u = t') ∨ (scope' ≠ scope ∧ ctx.TableOf u scope') := by
  cases scope with
  | detached => exact held.elim
  | module m =>
    obtain ⟨r, read, rfl⟩ := held
    cases scope' with
    | detached => exact False.elim
    | module k =>
      rintro ⟨r', read', rfl⟩
      rcases (module_modifyModule read).mp read' with ⟨rfl, rfl⟩ | ⟨other, old⟩
      · exact .inl ⟨rfl, rfl⟩
      · exact .inr ⟨by simpa using other, r', old, rfl⟩
    | function g => exact fun kept => .inr ⟨by simp, kept⟩
  | function f =>
    obtain ⟨r, read, names⟩ := held
    obtain ⟨fr, kind, _⟩ := function_of_names? names
    cases scope' with
    | detached => exact False.elim
    | module k => exact fun kept => .inr ⟨by simp, kept⟩
    | function g =>
      rintro ⟨r', read', names'⟩
      rcases (value_modifyFunction read kind).mp read' with ⟨same, rfl⟩ | ⟨other, old⟩
      · obtain rfl : g = f := by
          cases g
          cases f
          exact congrArg FunctionRef.mk same
        exact .inl ⟨rfl, (Option.some.inj names').symm⟩
      · refine .inr ⟨?_, r', old, names'⟩
        rintro same
        exact other (congrArg FunctionRef.value (NameScope.function.inj same))

/-! ### A name is replaced -/

def setSymbolName (ctx : Context) (name : Option String) : Symbol → Context
  | .value v => ctx.setValueName v name
  | .block b => ctx.setBlockName b name

theorem value_setValueName {r r' : ValueRecord} {u : ValueRef} (read : ctx.value v = .ok r) :
    (ctx.setValueName v bound).value u = .ok r' ↔
      (u = v ∧ r' = { r with name := bound }) ∨ (u ≠ v ∧ ctx.value u = .ok r') :=
  value_modifyValue read (value_eq_ok.mp read).2.2

theorem block_setBlockName {r r' : BlockRecord} {c : BlockRef} (read : ctx.block b = .ok r) :
    (ctx.setBlockName b bound).block c = .ok r' ↔
      (c = b ∧ r' = { r with name := bound }) ∨ (c ≠ b ∧ ctx.block c = .ok r') :=
  block_modifyBlock read (block_eq_ok.mp read).2.2

theorem symbolName_setSymbolName (live : ctx.symbolName s = .ok old) {name : Option String} :
    (ctx.setSymbolName bound s).symbolName x = .ok name ↔
      (x = s ∧ name = bound) ∨ (x ≠ s ∧ ctx.symbolName x = .ok name) := by
  cases s with
  | value v =>
    obtain ⟨r, read, _⟩ := valueName_eq_ok.mp live
    cases x with
    | block c => exact (or_iff_right (by simp)).trans (and_iff_right (by simp)) |>.symm
    | value u =>
      change (ctx.setValueName v bound).valueName u = _ ↔ _ ∨ _ ∧ ctx.valueName u = _
      by_cases same : u = v
      · simp only [valueName_eq_ok, value_setValueName read, same]
        simp [eq_comm]
      · simp [valueName_eq_ok, value_setValueName read, same]
  | block b =>
    obtain ⟨r, read, _⟩ := symbolName_block.mp live
    cases x with
    | value u => exact (or_iff_right (by simp)).trans (and_iff_right (by simp)) |>.symm
    | block c =>
      rw [symbolName_block, symbolName_block]
      change (∃ r', (ctx.setBlockName b bound).block c = _ ∧ _) ↔ _
      by_cases same : c = b
      · simp [block_setBlockName read, same, eq_comm]
      · simp [block_setBlockName read, same]

theorem scoped_setSymbolName (live : ctx.symbolName s = .ok old) :
    (ctx.setSymbolName bound s).Scoped scope x ↔ ctx.Scoped scope x := by
  cases s with
  | value v =>
    obtain ⟨r, read, _⟩ := valueName_eq_ok.mp live
    constructor
    · refine KeepsHomes.scoped ⟨fun u r' read' => ?_, fun c r read => ⟨r, read, rfl⟩⟩
      rcases (value_setValueName read).mp read' with ⟨rfl, rfl⟩ | ⟨_, kept⟩
      · exact ⟨r, read, rfl⟩
      · exact ⟨r', kept, rfl⟩
    · refine KeepsHomes.scoped ⟨fun u r' read' => ?_, fun c r read => ⟨r, read, rfl⟩⟩
      by_cases same : u = v
      · subst same
        obtain rfl := Checked.unique read read'
        exact ⟨_, (value_setValueName read).mpr (.inl ⟨rfl, rfl⟩), rfl⟩
      · exact ⟨r', (value_setValueName read).mpr (.inr ⟨same, read'⟩), rfl⟩
  | block b =>
    obtain ⟨r, read, _⟩ := symbolName_block.mp live
    constructor
    · refine KeepsHomes.scoped ⟨fun u r read => ⟨r, read, rfl⟩, fun c r' read' => ?_⟩
      rcases (block_setBlockName read).mp read' with ⟨rfl, rfl⟩ | ⟨_, kept⟩
      · exact ⟨r, read, rfl⟩
      · exact ⟨r', kept, rfl⟩
    · refine KeepsHomes.scoped ⟨fun u r read => ⟨r, read, rfl⟩, fun c r' read' => ?_⟩
      by_cases same : c = b
      · subst same
        obtain rfl := Checked.unique read read'
        exact ⟨_, (block_setBlockName read).mpr (.inl ⟨rfl, rfl⟩), rfl⟩
      · exact ⟨r', (block_setBlockName read).mpr (.inr ⟨same, read'⟩), rfl⟩

theorem names_setSymbolName (live : ctx.symbolName s = .ok old) :
    (ctx.setSymbolName bound s).Names scope x n ↔
      (x = s ∧ ctx.Scoped scope s ∧ bound = some n) ∨ (x ≠ s ∧ ctx.Names scope x n) := by
  unfold Names
  rw [scoped_setSymbolName live, symbolName_setSymbolName live]
  by_cases same : x = s
  · simp [same, eq_comm]
  · simp [same]

theorem tableOf_setSymbolName (live : ctx.symbolName s = .ok old)
    (held : (ctx.setSymbolName bound s).TableOf t scope) : ctx.TableOf t scope := by
  cases s with
  | block b => cases scope <;> exact held
  | value v =>
    obtain ⟨r, read, _⟩ := valueName_eq_ok.mp live
    cases scope with
    | detached => exact held
    | module m => exact held
    | function f =>
      obtain ⟨r', read', names⟩ := held
      rcases (value_setValueName read).mp read' with ⟨same, rfl⟩ | ⟨_, kept⟩
      · exact ⟨r, same ▸ read, names⟩
      · exact ⟨r', kept, names⟩

theorem Proper.setSymbolName (proper : ctx.Proper) (filled : bound ≠ some "") :
    (ctx.setSymbolName bound s).Proper := by
  cases s with
  | value v => exact proper.modifyValue fun _ _ => filled
  | block b => exact proper.modifyBlock fun _ _ => filled

theorem setSymbolName_keepsNames (live : ctx.symbolName s = .ok old)
    (loose : ∀ scope, ¬ctx.Scoped scope s) (filled : bound ≠ some "") :
    ctx.KeepsNames (ctx.setSymbolName bound s) := by
  refine ⟨fun scope t held => .inl ⟨tableOf_setSymbolName live held, fun x n => ?_⟩,
    fun proper => proper.setSymbolName filled⟩
  rw [names_setSymbolName live]
  have other : ctx.Names scope x n → x ≠ s := by
    rintro named rfl
    exact loose scope named.1
  simp only [loose scope, false_and, and_false, false_or]
  exact and_iff_right_of_imp other

/-! ### Both together -/

theorem Proper.setTable (proper : ctx.Proper) : (ctx.setTable t' scope).Proper := by
  cases scope with
  | detached => exact proper
  | module m => exact ⟨proper.values, proper.blocks⟩
  | function f =>
    refine proper.modifyValue fun r stored => ?_
    have old := proper.values _ r stored
    cases kind : r.kind <;> simpa only [kind] using old

/-- A symbol is given a name that its table gave out for it. What was entered under its old name is
given up, unless it was pending. -/
theorem Mirrors.rename (mirrors : ctx.Mirrors pending) (held : ctx.TableOf t scope)
    (inScope : ctx.Scoped scope s) {name : String} {current : Option String}
    (live : ctx.symbolName s = .ok current)
    (entered : ∀ n, (current = some n ∧ ¬pending s) ↔ old = some n)
    (rebound : t.rebind old name s = (bound, t')) :
    ((ctx.setTable t' scope).setSymbolName bound s).Mirrors fun x => pending x ∧ x ≠ s := by
  have live' : (ctx.setTable t' scope).symbolName s = .ok current := symbolName_setTable held live
  have inScope' : (ctx.setTable t' scope).Scoped scope s := (setTable_keepsHomes held).scoped inScope
  intro scope' u held' n x
  have named : ((ctx.setTable t' scope).setSymbolName bound s).Names scope' x n ↔
      (x = s ∧ scope' = scope ∧ bound = some n) ∨ (x ≠ s ∧ ctx.Names scope' x n) := by
    have here : (ctx.setTable t' scope).Scoped scope' s ↔ scope' = scope := by
      constructor
      · exact fun there => inScope'.unique there
      · rintro rfl
        exact inScope'
    rw [names_setSymbolName live', names_setTable held, here]
  rw [named]
  rcases tableOf_setTable held (tableOf_setSymbolName live' held') with ⟨rfl, rfl⟩ | ⟨other, kept⟩
  · rw [NameTable.find?_rebind rebound, mirrors scope' t held n x]
    by_cases same : x = s
    · subst same
      have gone : ¬(old ≠ some n ∧ ctx.Names scope' x n ∧ ¬pending x) := by
        rintro ⟨other, ⟨_, name⟩, settled⟩
        exact other ((entered n).mp ⟨Checked.unique live name, settled⟩)
      simp [gone]
    · have kept : ctx.Names scope' x n ∧ ¬pending x → old ≠ some n := by
        rintro both rfl
        obtain ⟨rfl, settled⟩ := (entered n).mpr rfl
        have bound := (mirrors scope' t held n s).mpr ⟨⟨inScope, live⟩, settled⟩
        have bound' := (mirrors scope' t held n x).mpr both
        exact same (Option.some.inj (bound'.symm.trans bound))
      simp only [same, false_and, false_or, ne_eq, not_false_eq_true, true_and, and_true]
      exact and_iff_right_of_imp kept
  · rw [mirrors scope' u kept n x]
    by_cases same : x = s
    · subst same
      have elsewhere : ¬ctx.Names scope' x n := fun named => other (inScope.unique named.1)
      simp [other, elsewhere]
    · simp [same]

end Context
end ModuleIR
