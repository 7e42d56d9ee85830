import ModuleIR.Build.Naming
import ModuleIR.Proofs.Arena.Changes
import ModuleIR.Proofs.Names.Fresh
import ModuleIR.Proofs.Steps.Results

set_option autoImplicit false

/-!
# Tables that mirror names

A symbol is named in the table of its scope: a global or function in that of its module, an argument,
a placed block and an instruction of a placed block in that of their function. `Context.Mirrors` says
that the tables bind a name to a symbol exactly when the symbol is in the scope and has the name, but
for symbols that are pending: those of a block that was placed and whose names are not entered yet.
A change keeps it when it touches neither names, nor scopes, nor tables; a renaming keeps it, and
settles the symbol that it renames.
-/
namespace ModuleIR

/-- Where the name of a value is tabled: in a known table, or wherever its block is. -/
inductive Home where
  | table (scope : NameScope)
  | block (block : BlockRef)

def ValueKind.home : ValueKind → Option Home
  | .global g => some (.table (.module g.module))
  | .function f => some (.table (.module f.module))
  | .argument a => some (.table (.function a.parent))
  | .instruction i => some (.block i.parent)
  | _ => none

def ValueKind.names? : ValueKind → Option NameTable
  | .function f => some f.names
  | _ => none

namespace Context

def BlockIn (ctx : Context) (scope : NameScope) (b : BlockRef) : Prop :=
  ∃ br f, ctx.block b = .ok br ∧ br.parent = some f ∧ scope = .function f

def HomeIn (ctx : Context) (scope : NameScope) : Home → Prop
  | .table known => scope = known
  | .block b => ctx.BlockIn scope b

/-- The name of the symbol is tabled in the scope, if it has one. -/
def Scoped (ctx : Context) (scope : NameScope) : Symbol → Prop
  | .value v => ∃ r home, ctx.value v = .ok r ∧ r.kind.home = some home ∧ ctx.HomeIn scope home
  | .block b => ctx.BlockIn scope b

/-- The symbol is the block, or an instruction in it. -/
def Inside (ctx : Context) (b : BlockRef) : Symbol → Prop
  | .value v => ∃ r, ctx.value v = .ok r ∧ r.kind.home = some (.block b)
  | .block c => c = b

def symbolName (ctx : Context) : Symbol → Checked (Option String)
  | .value v => ctx.valueName v
  | .block b => return (← ctx.block b).name

def Names (ctx : Context) (scope : NameScope) (s : Symbol) (n : String) : Prop :=
  ctx.Scoped scope s ∧ ctx.symbolName s = .ok (some n)

/-- The table of a scope. What is detached has none. -/
def TableOf (ctx : Context) (t : NameTable) : NameScope → Prop
  | .module m => ∃ r, ctx.module m = .ok r ∧ r.names = t
  | .function f => ∃ r, ctx.value f.value = .ok r ∧ r.kind.names? = some t
  | .detached => False

/-- The tables mirror the names of all symbols but the pending ones. -/
def Mirrors (ctx : Context) (pending : Symbol → Prop) : Prop :=
  ∀ scope t, ctx.TableOf t scope → ∀ n s, t.find? n = some s ↔ ctx.Names scope s n ∧ ¬pending s

structure Proper (ctx : Context) : Prop where
  values : ∀ (i : Nat) r, ctx.values[i]? = some r → r.name ≠ some ""
  blocks : ∀ (i : Nat) r, ctx.blocks[i]? = some r → r.name ≠ some ""

/-- Every table is an old one, of a scope with the same names as before, or empty, of a scope without
names. -/
structure KeepsNames (ctx ctx' : Context) : Prop where
  tables : ∀ scope t, ctx'.TableOf t scope →
    (ctx.TableOf t scope ∧ ∀ s n, ctx'.Names scope s n ↔ ctx.Names scope s n) ∨
    ((∀ n, t.find? n = none) ∧ ∀ s n, ¬ctx'.Names scope s n)
  proper : ctx.Proper → ctx'.Proper

structure KeepsHomes (ctx ctx' : Context) : Prop where
  values : ∀ v r, ctx.value v = .ok r → ∃ r', ctx'.value v = .ok r' ∧ r'.kind.home = r.kind.home
  blocks : ∀ b r, ctx.block b = .ok r → ∃ r', ctx'.block b = .ok r' ∧ r'.parent = r.parent

variable {ctx ctx' : Context} {pending : Symbol → Prop} {scope scope' : NameScope} {s x : Symbol}
  {n : String} {v : ValueRef} {b : BlockRef} {t t' : NameTable}

theorem symbolName_block {name : Option String} :
    ctx.symbolName (.block b) = .ok name ↔ ∃ r, ctx.block b = .ok r ∧ r.name = name := by
  simp [symbolName, Checked.bind_eq_ok]

instance : Std.Refl KeepsNames :=
  ⟨fun _ => ⟨fun _ _ held => .inl ⟨held, fun _ _ => .rfl⟩, fun proper => proper⟩⟩

instance : IsTrans Context KeepsNames where
  trans a b c first second := by
    refine ⟨?_, second.proper ∘ first.proper⟩
    intro scope t held
    rcases second.tables scope t held with ⟨held', names'⟩ | new
    · rcases first.tables scope t held' with ⟨held'', names⟩ | ⟨empty, none⟩
      · exact .inl ⟨held'', fun s n => (names' s n).trans (names s n)⟩
      · exact .inr ⟨empty, fun s n named => none s n ((names' s n).mp named)⟩
    · exact .inr new

theorem Mirrors.keep (mirrors : ctx.Mirrors pending) (keeps : ctx.KeepsNames ctx') :
    ctx'.Mirrors pending := by
  intro scope t held n s
  rcases keeps.tables scope t held with ⟨held', names⟩ | ⟨empty, none⟩
  · rw [names]
    exact mirrors scope t held' n s
  · rw [empty]
    exact iff_of_false (by simp) fun named => none s n named.1

/-- A symbol without a name has nothing to be entered. -/
theorem Mirrors.settle (mirrors : ctx.Mirrors pending) (unnamed : ∀ scope n, ¬ctx.Names scope x n) :
    ctx.Mirrors fun s => pending s ∧ s ≠ x := by
  intro scope t held n s
  rw [mirrors scope t held n s]
  refine and_congr_right fun named => not_congr ?_
  have other : s ≠ x := by
    rintro rfl
    exact unnamed scope n named
  exact (and_iff_left other).symm

theorem Mirrors.congr {pending' : Symbol → Prop} (mirrors : ctx.Mirrors pending)
    (same : ∀ s, pending' s ↔ pending s) : ctx.Mirrors pending' := by
  intro scope t held n s
  rw [mirrors scope t held n s, same]

/-! ### Scopes -/

theorem BlockIn.unique (here : ctx.BlockIn scope b) (there : ctx.BlockIn scope' b) :
    scope' = scope := by
  obtain ⟨br, f, read, parent, rfl⟩ := here
  obtain ⟨br', f', read', parent', rfl⟩ := there
  obtain rfl := Checked.unique read read'
  rw [Option.some.inj (parent'.symm.trans parent)]

theorem Scoped.unique (here : ctx.Scoped scope s) (there : ctx.Scoped scope' s) :
    scope' = scope := by
  cases s with
  | block b => exact BlockIn.unique here there
  | value v =>
    obtain ⟨r, home, read, kind, inside⟩ := here
    obtain ⟨r', home', read', kind', inside'⟩ := there
    obtain rfl := Checked.unique read read'
    obtain rfl := Option.some.inj (kind.symm.trans kind')
    cases home with
    | table known => exact Eq.trans inside' inside.symm
    | block b => exact BlockIn.unique inside inside'

theorem scoped_value : ctx.Scoped scope (.value v) ↔
    (∃ g, ctx.global ⟨v⟩ = .ok g ∧ scope = .module g.module) ∨
    (∃ f, ctx.function ⟨v⟩ = .ok f ∧ scope = .module f.module) ∨
    (∃ a, ctx.argument ⟨v⟩ = .ok a ∧ scope = .function a.parent) ∨
    ∃ i, ctx.instruction ⟨v⟩ = .ok i ∧ ctx.BlockIn scope i.parent := by
  constructor
  · rintro ⟨r, home, read, content, inside⟩
    cases kind : r.kind with
    | global g =>
      rw [kind] at content
      obtain rfl := Option.some.inj content
      exact .inl ⟨g, global_eq_ok.mpr ⟨r, read, kind⟩, inside⟩
    | function f =>
      rw [kind] at content
      obtain rfl := Option.some.inj content
      exact .inr (.inl ⟨f, function_eq_ok.mpr ⟨r, read, kind⟩, inside⟩)
    | argument a =>
      rw [kind] at content
      obtain rfl := Option.some.inj content
      exact .inr (.inr (.inl ⟨a, argument_eq_ok.mpr ⟨r, read, kind⟩, inside⟩))
    | instruction i =>
      rw [kind] at content
      obtain rfl := Option.some.inj content
      exact .inr (.inr (.inr ⟨i, instruction_eq_ok.mpr ⟨r, read, kind⟩, inside⟩))
    | _ =>
      rw [kind] at content
      cases content
  · rintro (⟨g, known, inside⟩ | ⟨f, known, inside⟩ | ⟨a, known, inside⟩ | ⟨i, known, inside⟩)
    · obtain ⟨r, read, kind⟩ := global_eq_ok.mp known
      exact ⟨r, .table (.module g.module), read, by rw [kind]; rfl, inside⟩
    · obtain ⟨r, read, kind⟩ := function_eq_ok.mp known
      exact ⟨r, .table (.module f.module), read, by rw [kind]; rfl, inside⟩
    · obtain ⟨r, read, kind⟩ := argument_eq_ok.mp known
      exact ⟨r, .table (.function a.parent), read, by rw [kind]; rfl, inside⟩
    · obtain ⟨r, read, kind⟩ := instruction_eq_ok.mp known
      exact ⟨r, .block i.parent, read, by rw [kind]; rfl, inside⟩

theorem Scoped.attached (here : ctx.Scoped scope s) : scope ≠ .detached := by
  have placed {b : BlockRef} : ctx.BlockIn scope b → scope ≠ .detached := by
    rintro ⟨_, _, _, _, rfl⟩
    simp
  cases s with
  | block b => exact placed here
  | value v =>
    rcases scoped_value.mp here with ⟨_, _, rfl⟩ | ⟨_, _, rfl⟩ | ⟨_, _, rfl⟩ | ⟨_, _, inside⟩
    · simp
    · simp
    · simp
    · exact placed inside

theorem KeepsHomes.blockIn (keeps : ctx.KeepsHomes ctx') (here : ctx.BlockIn scope b) :
    ctx'.BlockIn scope b := by
  obtain ⟨br, f, read, parent, rfl⟩ := here
  obtain ⟨br', read', same⟩ := keeps.blocks b br read
  exact ⟨br', f, read', same.trans parent, rfl⟩

theorem KeepsHomes.scoped (keeps : ctx.KeepsHomes ctx') (here : ctx.Scoped scope s) :
    ctx'.Scoped scope s := by
  cases s with
  | block b => exact keeps.blockIn here
  | value v =>
    obtain ⟨r, home, read, kind, inside⟩ := here
    obtain ⟨r', read', same⟩ := keeps.values v r read
    refine ⟨r', home, read', same.trans kind, ?_⟩
    cases home with
    | table known => exact inside
    | block b => exact keeps.blockIn inside

theorem Names.of_records (named : ctx.Names scope s n)
    (values : ∀ v r, s = .value v → ctx.value v = .ok r → r.name = some n →
      ∃ r', ctx'.value v = .ok r' ∧ r'.name = some n ∧ r'.kind.home = r.kind.home)
    (blocks : ∀ b r f, ctx.Inside b s → ctx.block b = .ok r → r.parent = some f →
      ∃ r', ctx'.block b = .ok r' ∧ r'.name = r.name ∧ r'.parent = some f) :
    ctx'.Names scope s n := by
  have inside {b : BlockRef} (here : ctx.Inside b s) (held : ctx.BlockIn scope b) :
      ctx'.BlockIn scope b := by
    obtain ⟨br, f, read, parent, rfl⟩ := held
    obtain ⟨br', read', _, parent'⟩ := blocks b br f here read parent
    exact ⟨br', f, read', parent', rfl⟩
  obtain ⟨inScope, name⟩ := named
  cases s with
  | block b =>
    refine ⟨inside rfl inScope, ?_⟩
    obtain ⟨br, f, read, parent, _⟩ := inScope
    obtain ⟨br', read', same, _⟩ := blocks b br f rfl read parent
    obtain ⟨again, read'', named⟩ := symbolName_block.mp name
    obtain rfl := Checked.unique read read''
    exact symbolName_block.mpr ⟨br', read', same.trans named⟩
  | value v =>
    obtain ⟨r, home, read, kind, here⟩ := inScope
    obtain ⟨again, read'', named⟩ := valueName_eq_ok.mp name
    obtain rfl := Checked.unique read read''
    obtain ⟨r', read', named', kind'⟩ := values v r rfl read named
    refine ⟨⟨r', home, read', kind'.trans kind, ?_⟩, valueName_eq_ok.mpr ⟨r', read', named'⟩⟩
    cases home with
    | table known => exact here
    | block b => exact inside ⟨r, read, kind⟩ here

theorem WellFormed.table_of_scoped (wf : ctx.WellFormed) (here : ctx.Scoped scope s) :
    ∃ t, ctx.TableOf t scope := by
  have kept {f : FunctionRef} {fr : FunctionRecord} (known : ctx.function f = .ok fr) :
      ∃ t, ctx.TableOf t (.function f) := by
    obtain ⟨r, held, kind⟩ := function_eq_ok.mp known
    exact ⟨fr.names, r, held, by rw [kind]; rfl⟩
  have placed {b : BlockRef} (inside : ctx.BlockIn scope b) : ∃ t, ctx.TableOf t scope := by
    obtain ⟨br, f, read, parent, rfl⟩ := inside
    obtain ⟨fr, known, _⟩ := wf.block_listed read parent
    exact kept known
  cases s with
  | block b => exact placed here
  | value v =>
    rcases scoped_value.mp here with ⟨g, known, rfl⟩ | ⟨f, known, rfl⟩ | ⟨a, known, rfl⟩ | ⟨_, _, inside⟩
    · obtain ⟨mr, live, _⟩ := wf.global_listed known
      exact ⟨mr.names, mr, live, rfl⟩
    · obtain ⟨mr, live, _⟩ := wf.function_listed known
      exact ⟨mr.names, mr, live, rfl⟩
    · obtain ⟨fr, known', _⟩ := wf.argument_listed known
      exact kept known'
    · exact placed inside

/-! ### Changes that touch no name -/

/-- A table without names, in a scope without names. -/
def Blank (ctx : Context) (t : NameTable) (scope : NameScope) : Prop :=
  (∀ n, t.find? n = none) ∧ ∀ s n, ¬ctx.Names scope s n

/-- What a change of records has to keep. -/
theorem keepsNames_of_records
    (values : ∀ v r, ctx.value v = .ok r → ∃ r', ctx'.value v = .ok r' ∧ r'.name = r.name ∧
      r'.kind.home = r.kind.home ∧ r'.kind.names? = r.kind.names?)
    (freshValues : ∀ v r', ctx'.value v = .ok r' → (∃ r, ctx.value v = .ok r) ∨
      (r'.name = none ∧ ∀ t, r'.kind.names? = some t → ctx.Blank t (.function ⟨v⟩)))
    (blocks : ∀ b r, ctx.block b = .ok r → ∃ r', ctx'.block b = .ok r' ∧ r'.name = r.name ∧
      r'.parent = r.parent)
    (freshBlocks : ∀ b r', ctx'.block b = .ok r' → (∃ r, ctx.block b = .ok r) ∨ r'.parent = none)
    (modules : ∀ m r', ctx'.module m = .ok r' → (∃ r, ctx.module m = .ok r ∧ r.names = r'.names) ∨
      ctx.Blank r'.names (.module m))
    (proper : ctx.Proper → ctx'.Proper) : ctx.KeepsNames ctx' := by
  have names scope s n : ctx'.Names scope s n ↔ ctx.Names scope s n := by
    constructor
    · intro named
      refine named.of_records (fun v r' _ read' name => ?_) (fun b r' f _ read' parent => ?_)
      · rcases freshValues v r' read' with ⟨r, read⟩ | ⟨none, _⟩
        · obtain ⟨same, read'', name', home, _⟩ := values v r read
          obtain rfl := Checked.unique read' read''
          exact ⟨r, read, name'.symm.trans name, home.symm⟩
        · rw [none] at name
          cases name
      · rcases freshBlocks b r' read' with ⟨r, read⟩ | none
        · obtain ⟨same, read'', name', parent'⟩ := blocks b r read
          obtain rfl := Checked.unique read' read''
          exact ⟨r, read, name'.symm, parent'.symm.trans parent⟩
        · rw [none] at parent
          cases parent
    · intro named
      refine named.of_records (fun v r _ read name => ?_) (fun b r f _ read parent => ?_)
      · obtain ⟨r', read', name', home, _⟩ := values v r read
        exact ⟨r', read', name'.trans name, home⟩
      · obtain ⟨r', read', name', parent'⟩ := blocks b r read
        exact ⟨r', read', name', parent'.trans parent⟩
  refine ⟨fun scope t held => ?_, proper⟩
  have blank : ctx.Blank t scope → (∀ n, t.find? n = none) ∧ ∀ s n, ¬ctx'.Names scope s n :=
    fun blank => ⟨blank.1, fun s n named => blank.2 s n ((names scope s n).mp named)⟩
  cases scope with
  | module m =>
    obtain ⟨r', read', rfl⟩ := held
    rcases modules m r' read' with ⟨r, read, same⟩ | new
    · exact .inl ⟨⟨r, read, same⟩, names _⟩
    · exact .inr (blank new)
  | function f =>
    obtain ⟨r', read', table⟩ := held
    rcases freshValues f.value r' read' with ⟨r, read⟩ | ⟨_, new⟩
    · obtain ⟨same, read'', _, _, kept⟩ := values f.value r read
      obtain rfl := Checked.unique read' read''
      exact .inl ⟨⟨r, read, kept.symm.trans table⟩, names _⟩
    · exact .inr (blank (new t table))
  | detached => exact held.elim

theorem keepsNames_of_arenas (id : ctx'.id = ctx.id) (values : ctx'.values = ctx.values)
    (blocks : ctx'.blocks = ctx.blocks) (modules : ctx'.modules = ctx.modules) :
    ctx.KeepsNames ctx' := by
  refine keepsNames_of_records (fun v r read => ?_) (fun v r' read => ?_) (fun b r read => ?_)
    (fun b r' read => ?_) (fun m r' read => .inl ?_) (fun proper => ?_)
  · exact ⟨r, (value_congr id values v).trans read, rfl, rfl, rfl⟩
  · exact .inl ⟨r', (value_congr id values v).symm.trans read⟩
  · exact ⟨r, (block_congr id blocks b).trans read, rfl, rfl⟩
  · exact .inl ⟨r', (block_congr id blocks b).symm.trans read⟩
  · exact ⟨r', (module_congr id modules m).symm.trans read, rfl⟩
  · exact ⟨values ▸ proper.values, blocks ▸ proper.blocks⟩

theorem Proper.allocValue (proper : ctx.Proper) {r : ValueRecord} (unnamed : r.name = none) :
    (ctx.allocValue r).2.Proper where
  values i r' stored := by
    rw [values_allocValue] at stored
    split at stored
    · obtain rfl := Option.some.inj stored
      simp [unnamed]
    · exact proper.values i r' stored
  blocks := proper.blocks

theorem Proper.modifyValue (proper : ctx.Proper) {f : ValueRecord → ValueRecord}
    (filled : ∀ r, ctx.values[v.index]? = some r → (f r).name ≠ some "") :
    (ctx.modifyValue v f).Proper where
  values i r stored := by
    rw [values_modifyValue] at stored
    split at stored
    · rename_i same
      obtain ⟨old, known, rfl⟩ := Option.map_eq_some_iff.mp stored
      exact filled old (same ▸ known)
    · exact proper.values i r stored
  blocks := proper.blocks

theorem Proper.modifyBlock (proper : ctx.Proper) {f : BlockRecord → BlockRecord}
    (filled : ∀ r, ctx.blocks[b.index]? = some r → (f r).name ≠ some "") :
    (ctx.modifyBlock b f).Proper where
  values := proper.values
  blocks i r stored := by
    rw [blocks_modifyBlock] at stored
    split at stored
    · rename_i same
      obtain ⟨old, known, rfl⟩ := Option.map_eq_some_iff.mp stored
      exact filled old (same ▸ known)
    · exact proper.blocks i r stored

theorem allocValue_keepsNames {r : ValueRecord} (unnamed : r.name = none)
    (live : r.kind ≠ .erased)
    (blank : ∀ t, r.kind.names? = some t → ctx.Blank t (.function ⟨⟨ctx.id, ctx.values.size⟩⟩)) :
    ctx.KeepsNames (ctx.allocValue r).2 := by
  refine keepsNames_of_records (fun v old read => ?_) (fun v r' read => ?_)
    (fun b r read => ⟨r, read, rfl, rfl⟩) (fun b r' read => .inl ⟨r', read⟩)
    (fun m r' read => .inl ⟨r', read, rfl⟩) (·.allocValue unnamed)
  · exact ⟨old, (value_allocValue live).mpr (.inl read), rfl, rfl, rfl⟩
  · rcases (value_allocValue live).mp read with old | ⟨rfl, rfl⟩
    · exact .inl ⟨r', old⟩
    · exact .inr ⟨unnamed, blank⟩

theorem WellFormed.blank (wf : ctx.WellFormed) (empty : ∀ n, t.find? n = none)
    (new : ∀ u, ¬ctx.TableOf u scope) : ctx.Blank t scope := by
  refine ⟨empty, fun s n named => ?_⟩
  obtain ⟨u, held⟩ := wf.table_of_scoped named.1
  exact new u held

theorem allocFunction_keepsNames (wf : ctx.WellFormed) {type : TypeRef} {fr : FunctionRecord}
    (empty : ∀ n, fr.names.find? n = none) :
    ctx.KeepsNames (ctx.allocValue { type, kind := .function fr }).2 := by
  refine allocValue_keepsNames rfl (by simp) fun t table => ?_
  obtain rfl := Option.some.inj table
  refine wf.blank empty ?_
  rintro u ⟨r, read, _⟩
  exact value_next_ne_ok read

theorem pushModule_keepsNames (wf : ctx.WellFormed) {mr : ModuleRecord}
    (empty : ∀ n, mr.names.find? n = none) :
    ctx.KeepsNames { ctx with modules := ctx.modules.push (some mr) } := by
  refine keepsNames_of_records (fun v r read => ⟨r, read, rfl, rfl, rfl⟩)
    (fun v r' read => .inl ⟨r', read⟩) (fun b r read => ⟨r, read, rfl, rfl⟩)
    (fun b r' read => .inl ⟨r', read⟩) (fun m r' read => ?_)
    (fun proper => ⟨proper.values, proper.blocks⟩)
  obtain ⟨owner, stored⟩ := module_eq_ok.mp read
  rw [Array.getElem?_push] at stored
  split at stored
  · rename_i last
    obtain rfl := Option.some.inj (Option.some.inj stored)
    refine .inr (wf.blank empty ?_)
    rintro u ⟨r, read', _⟩
    have inside := (Array.getElem?_eq_some_iff.mp (module_eq_ok.mp read').2).1
    omega
  · exact .inl ⟨r', module_eq_ok.mpr ⟨owner, stored⟩, rfl⟩

theorem modifyValue_keepsNames {r : ValueRecord} {f : ValueRecord → ValueRecord}
    (read : ctx.value v = .ok r) (alive : (f r).kind ≠ .erased) (name : (f r).name = r.name)
    (home : (f r).kind.home = r.kind.home) (names : (f r).kind.names? = r.kind.names?) :
    ctx.KeepsNames (ctx.modifyValue v f) := by
  refine keepsNames_of_records (fun u old read' => ?_) (fun u r' read' => ?_)
    (fun b r read => ⟨r, read, rfl, rfl⟩) (fun b r' read => .inl ⟨r', read⟩)
    (fun m r' read => .inl ⟨r', read, rfl⟩) (fun proper => proper.modifyValue ?_)
  · by_cases same : u = v
    · subst same
      obtain rfl := Checked.unique read read'
      exact ⟨f r, (value_modifyValue read alive).mpr (.inl ⟨rfl, rfl⟩), name, home, names⟩
    · exact ⟨old, (value_modifyValue read alive).mpr (.inr ⟨same, read'⟩), rfl, rfl, rfl⟩
  · rcases (value_modifyValue read alive).mp read' with ⟨rfl, _⟩ | ⟨_, old⟩
    · exact .inl ⟨r, read⟩
    · exact .inl ⟨r', old⟩
  · intro r' stored
    rw [(value_eq_ok.mp read).2.1] at stored
    obtain rfl := Option.some.inj stored
    rw [name]
    exact proper.values _ r (value_eq_ok.mp read).2.1

theorem modifyBlock_keepsNames {r : BlockRecord} {f : BlockRecord → BlockRecord}
    (read : ctx.block b = .ok r) (alive : (f r).erased = false) (name : (f r).name = r.name)
    (parent : (f r).parent = r.parent) : ctx.KeepsNames (ctx.modifyBlock b f) := by
  refine keepsNames_of_records (fun v r read => ⟨r, read, rfl, rfl, rfl⟩)
    (fun v r' read => .inl ⟨r', read⟩) (fun c old read' => ?_) (fun c r' read' => ?_)
    (fun m r' read => .inl ⟨r', read, rfl⟩) (fun proper => proper.modifyBlock ?_)
  · by_cases same : c = b
    · subst same
      obtain rfl := Checked.unique read read'
      exact ⟨f r, (block_modifyBlock read alive).mpr (.inl ⟨rfl, rfl⟩), name, parent⟩
    · exact ⟨old, (block_modifyBlock read alive).mpr (.inr ⟨same, read'⟩), rfl, rfl⟩
  · rcases (block_modifyBlock read alive).mp read' with ⟨rfl, _⟩ | ⟨_, old⟩
    · exact .inl ⟨r, read⟩
    · exact .inl ⟨r', old⟩
  · intro r' stored
    rw [(block_eq_ok.mp read).2.1] at stored
    obtain rfl := Option.some.inj stored
    rw [name]
    exact proper.blocks _ r (block_eq_ok.mp read).2.1

theorem modifyModule_keepsNames {m : ModuleRef} {f : ModuleRecord → ModuleRecord}
    (names : ∀ r, (f r).names = r.names) : ctx.KeepsNames (ctx.modifyModule m f) := by
  refine keepsNames_of_records (fun v r read => ⟨r, read, rfl, rfl, rfl⟩)
    (fun v r' read => .inl ⟨r', read⟩) (fun b r read => ⟨r, read, rfl, rfl⟩)
    (fun b r' read => .inl ⟨r', read⟩) (fun k r' read => .inl ?_)
    (fun proper => ⟨proper.values, proper.blocks⟩)
  obtain ⟨owner, stored⟩ := module_eq_ok.mp read
  rw [modules_modifyModule] at stored
  split at stored
  · cases place : ctx.modules[k.index]? with
    | none => simp [place] at stored
    | some kept =>
      cases kept with
      | none => simp [place] at stored
      | some r =>
        obtain rfl : f r = r' := by simpa [place] using stored
        exact ⟨r, module_eq_ok.mpr ⟨owner, place⟩, (names r).symm⟩
  · exact ⟨r', module_eq_ok.mpr ⟨owner, stored⟩, rfl⟩

theorem pushBlock_keepsNames {r : BlockRecord} (loose : r.parent = none)
    (filled : r.name ≠ some "") :
    ctx.KeepsNames { ctx with blocks := ctx.blocks.push r } := by
  refine keepsNames_of_records (fun v r read => ⟨r, read, rfl, rfl, rfl⟩)
    (fun v r' read => .inl ⟨r', read⟩) (fun c old read => ?_) (fun c r' read => ?_)
    (fun m r' read => .inl ⟨r', read, rfl⟩) (fun proper => ⟨proper.values, fun i r' stored => ?_⟩)
  · obtain ⟨owner, stored, live⟩ := block_eq_ok.mp read
    exact ⟨old, block_eq_ok.mpr ⟨owner, getElem?_push_of_some stored, live⟩, rfl, rfl⟩
  · obtain ⟨owner, stored, live⟩ := block_eq_ok.mp read
    rw [Array.getElem?_push] at stored
    split at stored
    · obtain rfl := Option.some.inj stored
      exact .inr loose
    · exact .inl ⟨r', block_eq_ok.mpr ⟨owner, stored, live⟩⟩
  · rw [Array.getElem?_push] at stored
    split at stored
    · obtain rfl := Option.some.inj stored
      exact filled
    · exact proper.blocks i r' stored

end Context
end ModuleIR
