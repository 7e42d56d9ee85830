import ModuleIR.Proofs.Names.Steps
import ModuleIR.Proofs.Steps.Blocks

set_option autoImplicit false

/-!
# An inserted block brings its names

Once a block is placed, its name and those of its instructions are in the scope of the function, but
not in its table: they are pending. They are entered one after another, and what is entered is
settled. `Context.Adopting` is the invariant of that loop.
-/
namespace ModuleIR

namespace Context

variable {ctx : Context} {b : BlockRef} {f : FunctionRef} {br : BlockRecord} {fr : FunctionRecord}
  {position : Nat} {scope : NameScope} {s : Symbol} {n : String} {t : NameTable}

/-! ### The block is placed -/

theorem not_inside_of_scoped (read : ctx.block b = .ok br) (loose : br.parent = none)
    (here : ctx.Scoped scope s) : ¬ctx.Inside b s := by
  have detached : ¬ctx.BlockIn scope b := by
    rintro ⟨br', g, read', parent, _⟩
    obtain rfl := Checked.unique read read'
    rw [loose] at parent
    cases parent
  cases s with
  | block c =>
    rintro rfl
    exact detached here
  | value v =>
    rintro ⟨r, live, home⟩
    obtain ⟨r', home', live', kind, inside⟩ := here
    obtain rfl := Checked.unique live live'
    obtain rfl := Option.some.inj (home.symm.trans kind)
    exact detached inside

theorem block_placeBlock (read : ctx.block b = .ok br) {c : BlockRef} {r : BlockRecord} :
    (ctx.placeBlock b f position).block c = .ok r ↔
      (c = b ∧ r = { br with parent := some f }) ∨ (c ≠ b ∧ ctx.block c = .ok r) :=
  block_modifyBlock read (block_eq_ok.mp read).2.2

theorem value_placeBlock (known : ctx.function f = .ok fr) {v : ValueRef} {r : ValueRecord}
    (read : ctx.value v = .ok r) : ∃ r', (ctx.placeBlock b f position).value v = .ok r' ∧
      r'.name = r.name ∧ r'.kind.home = r.kind.home ∧ r'.kind.names? = r.kind.names? := by
  obtain ⟨value, held, kind⟩ := function_eq_ok.mp known
  by_cases same : v = f.value
  · subst same
    obtain rfl := Checked.unique held read
    refine ⟨_, (value_modifyFunction held kind).mpr (.inl ⟨rfl, rfl⟩), rfl, ?_, ?_⟩
    · rw [kind]
      rfl
    · rw [kind]
      rfl
  · exact ⟨r, (value_modifyFunction held kind).mpr (.inr ⟨same, read⟩), rfl, rfl, rfl⟩

theorem value_of_placeBlock (known : ctx.function f = .ok fr) {v : ValueRef} {r' : ValueRecord}
    (read' : (ctx.placeBlock b f position).value v = .ok r') : ∃ r, ctx.value v = .ok r ∧
      r.name = r'.name ∧ r.kind.home = r'.kind.home ∧ r.kind.names? = r'.kind.names? := by
  obtain ⟨value, held, kind⟩ := function_eq_ok.mp known
  have live : ∃ r, ctx.value v = .ok r := by
    rcases (value_modifyFunction held kind).mp read' with ⟨rfl, _⟩ | ⟨_, old⟩
    · exact ⟨value, held⟩
    · exact ⟨r', old⟩
  obtain ⟨r, read⟩ := live
  obtain ⟨same, read'', name, home, names⟩ := value_placeBlock known read
  obtain rfl := Checked.unique read' read''
  exact ⟨r, read, name.symm, home.symm, names.symm⟩

/-- The names that were in scope are still, and those of the block and its instructions are new. -/
theorem names_placeBlock (read : ctx.block b = .ok br) (loose : br.parent = none)
    (known : ctx.function f = .ok fr) :
    ctx.Names scope s n ↔
      (ctx.placeBlock b f position).Names scope s n ∧ ¬(ctx.placeBlock b f position).Inside b s := by
  have same : (ctx.placeBlock b f position).Inside b s → ctx.Inside b s := by
    cases s with
    | block c => exact fun inside => inside
    | value v =>
      rintro ⟨r', read', home'⟩
      obtain ⟨r, live, _, home, _⟩ := value_of_placeBlock known read'
      exact ⟨r, live, home.trans home'⟩
  constructor
  · intro named
    refine ⟨named.of_records (fun v r _ live name => ?_) (fun c r g _ live parent => ?_), ?_⟩
    · obtain ⟨r', read', name', home, _⟩ := value_placeBlock known live
      exact ⟨r', read', name'.trans name, home⟩
    · refine ⟨r, (block_placeBlock read).mpr (.inr ⟨?_, live⟩), rfl, parent⟩
      rintro rfl
      obtain rfl := Checked.unique read live
      rw [loose] at parent
      cases parent
    · exact fun inside => not_inside_of_scoped read loose named.1 (same inside)
  · rintro ⟨named, settled⟩
    refine named.of_records (fun v r' _ read' name => ?_) (fun c r' g inside read' parent => ?_)
    · obtain ⟨r, live, name', home, _⟩ := value_of_placeBlock known read'
      exact ⟨r, live, name'.trans name, home⟩
    · rcases (block_placeBlock read).mp read' with ⟨rfl, _⟩ | ⟨_, old⟩
      · exact absurd inside settled
      · exact ⟨r', old, rfl, parent⟩

theorem tableOf_placeBlock (known : ctx.function f = .ok fr)
    (held : (ctx.placeBlock b f position).TableOf t scope) : ctx.TableOf t scope := by
  cases scope with
  | detached => exact held
  | module m => exact held
  | function g =>
    obtain ⟨r', read', names⟩ := held
    obtain ⟨r, live, _, _, same⟩ := value_of_placeBlock known read'
    exact ⟨r, live, same.trans names⟩

theorem Proper.placeBlock (proper : ctx.Proper) : (ctx.placeBlock b f position).Proper := by
  have listed : (ctx.modifyFunction f (·.withBlock b position)).Proper := by
    refine proper.modifyValue fun r stored => ?_
    have old := proper.values _ r stored
    cases kind : r.kind <;> simpa only [kind] using old
  exact listed.modifyBlock fun r stored => proper.blocks _ r stored

/-! ### The names are entered -/

/-- The loop that enters the names of what is pending. -/
structure Adopting (ctx : Context) (f : FunctionRef) (pending : Symbol → Prop) : Prop where
  mirrors : ctx.Mirrors pending
  proper : ctx.Proper
  home : ∀ s, pending s → ctx.Scoped (.function f) s

theorem Named.adopting (named : ctx.Named) (read : ctx.block b = .ok br) (loose : br.parent = none)
    (known : ctx.function f = .ok fr) : (ctx.placeBlock b f position).Adopting f
      ((ctx.placeBlock b f position).Inside b) where
  mirrors scope t held n s := by
    rw [← names_placeBlock read loose known,
      named.mirrors scope t (tableOf_placeBlock known held) n s]
    exact and_iff_left not_false
  proper := named.proper.placeBlock
  home s inside := by
    have placed : (ctx.placeBlock b f position).BlockIn (.function f) b :=
      ⟨_, f, (block_placeBlock read).mpr (.inl ⟨rfl, rfl⟩), rfl, rfl⟩
    cases s with
    | block c =>
      obtain rfl : c = b := inside
      exact placed
    | value v =>
      obtain ⟨r, live, home⟩ := inside
      exact ⟨r, _, live, home, placed⟩

namespace Adopting

variable {pending pending' : Symbol → Prop} {old bound : Option String} {name : String} {mid : Context}

theorem congr (adopting : ctx.Adopting f pending) (same : ∀ s, pending' s ↔ pending s) :
    ctx.Adopting f pending' :=
  ⟨adopting.mirrors.congr same, adopting.proper, fun s waits => adopting.home s ((same s).mp waits)⟩

/-- What is pending is settled by entering its name. -/
theorem enter (adopting : ctx.Adopting f pending) (waits : pending s)
    (live : ctx.symbolName s = .ok old)
    (run : (Build.bindIn (.function f) none name s ctx).result = .ok (bound, mid)) :
    (mid.setSymbolName bound s).Adopting f fun x => pending x ∧ x ≠ s := by
  rcases Build.bindIn_eq_ok run with ⟨impossible, _⟩ | ⟨t, t', held, rebound, rfl⟩
  · cases impossible
  have live' : (ctx.setTable t' (.function f)).symbolName s = .ok old := symbolName_setTable held live
  refine ⟨?_, ?_, ?_⟩
  · have unentered (n : String) : (old = some n ∧ ¬pending s) ↔ none = some n := by simp [waits]
    exact adopting.mirrors.rename held (adopting.home s waits) live unentered rebound
  · exact adopting.proper.setTable.setSymbolName (NameTable.rebind_ne_empty rebound)
  · rintro x ⟨waits', _⟩
    have kept : (ctx.setTable t' (.function f)).Scoped (.function f) x :=
      (setTable_keepsHomes held).scoped (adopting.home x waits')
    exact (scoped_setSymbolName live').mpr kept

theorem skip (adopting : ctx.Adopting f pending) (live : ctx.symbolName s = .ok none) :
    ctx.Adopting f fun x => pending x ∧ x ≠ s := by
  refine ⟨adopting.mirrors.settle fun scope n named => ?_, adopting.proper, ?_⟩
  · have impossible := Checked.unique live named.2
    cases impossible
  · exact fun x waits => adopting.home x waits.1

theorem done (adopting : ctx.Adopting f pending) (none : ∀ s, ¬pending s) : ctx.Named :=
  ⟨adopting.mirrors.congr fun s => by simp [none s], adopting.proper⟩

end Adopting

def Among (is : List InstructionRef) (s : Symbol) : Prop := ∃ i ∈ is, s = .value i.value

theorem among_cons {i : InstructionRef} {rest : List InstructionRef} (fresh : i ∉ rest) :
    Among rest s ↔ Among (i :: rest) s ∧ s ≠ .value i.value := by
  constructor
  · rintro ⟨j, mem, rfl⟩
    refine ⟨⟨j, List.mem_cons_of_mem i mem, rfl⟩, ?_⟩
    intro same
    have equal : j = i := congrArg InstructionRef.mk (Symbol.value.inj same)
    exact fresh (equal ▸ mem)
  · rintro ⟨⟨j, mem, rfl⟩, other⟩
    rcases List.mem_cons.mp mem with rfl | mem'
    · exact absurd rfl other
    · exact ⟨j, mem', rfl⟩

theorem WellFormed.inside_iff (wf : ctx.WellFormed) (read : ctx.block b = .ok br) :
    ctx.Inside b s ↔ s = .block b ∨ Among br.instructions s := by
  cases s with
  | block c => simp [Inside, Among]
  | value v =>
    constructor
    · rintro ⟨r, live, home⟩
      cases kind : r.kind with
      | instruction ir =>
        rw [kind] at home
        obtain rfl : ir.parent = b := Home.block.inj (Option.some.inj home)
        obtain ⟨br', read', mem⟩ := wf.instruction_listed (instruction_eq_ok.mpr ⟨r, live, kind⟩)
        obtain rfl := Checked.unique read read'
        exact .inr ⟨⟨v⟩, mem, rfl⟩
      | _ =>
        rw [kind] at home
        cases home
    · rintro (impossible | ⟨i, mem, same⟩)
      · cases impossible
      · obtain rfl := Symbol.value.inj same
        obtain ⟨ir, known, parent⟩ := wf.block_instruction read mem
        obtain ⟨r, live, kind⟩ := instruction_eq_ok.mp known
        exact ⟨r, live, by rw [kind, ← parent]; rfl⟩

end Context

namespace Build

open Context

variable {ctx ctx' : Context} {b : BlockRef} {f : FunctionRef} {name : String}

theorem adoptNames_named {is : List InstructionRef} {u : Unit} (nodup : is.Nodup)
    (adopting : ctx.Adopting f (Among is))
    (run : (adoptNames f is ctx).result = .ok (u, ctx')) : ctx'.Named := by
  induction is generalizing ctx with
  | nil =>
    obtain ⟨_, rfl⟩ := pure_eq_ok.mp run
    exact adopting.done fun s => by simp [Among]
  | cons i rest ih =>
    obtain ⟨fresh, nodup'⟩ := List.nodup_cons.mp nodup
    simp only [adoptNames, bind_eq_ok, read_eq_ok] at run
    obtain ⟨name, _, ⟨named, rfl⟩, run⟩ := run
    have live : ctx.symbolName (.value i.value) = .ok name := named
    cases name with
    | none =>
      have rest' := adopting.skip live
      exact ih nodup' (rest'.congr fun s => among_cons fresh) run
    | some name =>
      simp only [bind_eq_ok, change_eq_ok] at run
      obtain ⟨bound, mid, table, _, _, rfl, run⟩ := run
      have entered : (bindIn (.function f) none name (.value i.value) ctx).result = .ok (bound, mid) :=
        table
      have rest' := adopting.enter ⟨i, List.mem_cons_self, rfl⟩ live entered
      exact ih nodup' (rest'.congr fun s => among_cons fresh) run

theorem adoptBlockName_adopting {br : BlockRecord} {pending : Symbol → Prop} {u : Unit}
    (adopting : ctx.Adopting f pending) (waits : pending (.block b)) (read : ctx.block b = .ok br)
    (run : (adoptBlockName f b ctx).result = .ok (u, ctx')) :
    (ctx'.Adopting f fun x => pending x ∧ x ≠ .block b) ∧
      ∃ br', ctx'.block b = .ok br' ∧ br'.instructions = br.instructions := by
  simp only [adoptBlockName, bind_eq_ok, read_eq_ok] at run
  obtain ⟨record, _, ⟨read', rfl⟩, run⟩ := run
  obtain rfl := Checked.unique read read'
  have live : ctx.symbolName (.block b) = .ok br.name := symbolName_block.mpr ⟨br, read, rfl⟩
  cases name : br.name with
  | none =>
    rw [name] at run live
    obtain ⟨_, rfl⟩ := pure_eq_ok.mp run
    exact ⟨adopting.skip live, br, read, rfl⟩
  | some name' =>
    simp only [name, bind_eq_ok, change_eq_ok] at run
    obtain ⟨bound, mid, table, rfl⟩ := run
    have entered : (bindIn (.function f) none name' (.block b) ctx).result = .ok (bound, mid) := table
    refine ⟨adopting.enter waits live entered, ?_⟩
    have read'' : mid.block b = .ok br := by
      rcases bindIn_eq_ok entered with ⟨impossible, _⟩ | ⟨t, t', _, _, rfl⟩
      · cases impossible
      · exact block_setTable.trans read
    exact ⟨_, (block_setBlockName read'').mpr (.inl ⟨rfl, rfl⟩), rfl⟩

theorem insertBlock_named (wf : ctx.WellFormed) {before : Option BlockRef} {u : Unit}
    (run : (insertBlock b f before ctx).result = .ok (u, ctx')) : ctx.StaysNamed ctx' := by
  obtain ⟨br, fr, position, mid, br', read, loose, known, _, inside, checked, entered, read',
    adopted⟩ := insertBlock_parts run
  intro named
  have placed : (ctx.placeBlock b f position).block b = .ok { br with parent := some f } :=
    (block_placeBlock read).mpr (.inl ⟨rfl, rfl⟩)
  have wf' := placeBlock_wellFormed wf read loose known inside (checkInsertion_owned read checked)
  have start : (ctx.placeBlock b f position).Adopting f ((ctx.placeBlock b f position).Inside b) :=
    named.adopting read loose known
  obtain ⟨adopting, br'', read'', same⟩ := adoptBlockName_adopting start rfl placed entered
  obtain rfl := Checked.unique read' read''
  have nodup : br'.instructions.Nodup := same ▸ (wf.blockSound read).nodup
  refine adoptNames_named nodup (adopting.congr fun s => ?_) adopted
  rw [wf'.inside_iff placed, same]
  constructor
  · rintro ⟨i, mem, rfl⟩
    exact ⟨.inr ⟨i, mem, rfl⟩, by simp⟩
  · rintro ⟨own | among, other⟩
    · exact absurd own other
    · exact among

theorem createBlock_named (wf : ctx.WellFormed) {parent : Option FunctionRef}
    {before : Option BlockRef} (run : (createBlock name parent before ctx).result = .ok (b, ctx')) :
    ctx.StaysNamed ctx' := by
  obtain ⟨b', grown, made, run⟩ := bind_eq_ok.mp run
  obtain ⟨rfl, rfl⟩ := Prod.mk.inj (update_eq_ok.mp made)
  obtain ⟨_, wf'⟩ := addBlock_spec wf (looseName name)
  have added : ctx.KeepsNames { ctx with blocks := ctx.blocks.push { name := looseName name } } :=
    pushBlock_keepsNames rfl looseName_ne_empty
  cases parent with
  | none =>
    simp only [bind_eq_ok, require_eq_ok, pure_eq_ok] at run
    obtain ⟨_, _, ⟨_, rfl⟩, rfl, rfl⟩ := run
    exact added.stays
  | some f =>
    simp only [bind_eq_ok, pure_eq_ok] at run
    obtain ⟨_, last, inserted, rfl, rfl⟩ := run
    exact trans_of _ added.stays (insertBlock_named wf' inserted)

end Build
end ModuleIR
