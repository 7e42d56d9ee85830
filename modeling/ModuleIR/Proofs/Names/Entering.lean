import ModuleIR.Proofs.Names.Keeping
import ModuleIR.Proofs.Names.Lookups
import ModuleIR.Proofs.Steps.Building

set_option autoImplicit false

/-!
# Names that are free when they are entered

A name that no other symbol holds is entered as it is. So a symbol that is renamed to the name it has
keeps it, and so do all bindings; and of the names that an inserted block brings, entered one after
another, each is kept that is free when its turn comes. What is bound then is what was bound before
the insertion, and the names that the symbols ahead of it have got.
-/
namespace ModuleIR

namespace NameTable

variable {t : NameTable} {old : Option String} {n : String} {s : Symbol}

theorem rebind_of_free (filled : n ≠ "") (free : old ≠ some n → t.find? n = none) :
    (t.rebind old n s).1 = some n := by
  have released : (t.released old).find? n = none := by
    rw [Option.eq_none_iff_forall_ne_some]
    intro x bound
    obtain ⟨other, bound⟩ := find?_released.mp bound
    rw [free other] at bound
    cases bound
  have empty : n.isEmpty ≠ true := by simpa using filled
  rw [rebind_eq, if_neg empty, insertUnique_of_free _ _ _ released]

theorem rebind_own (filled : old ≠ some "") : (t.rebind old (old.getD "") s).1 = old := by
  cases old with
  | none => rw [rebind_eq]; rfl
  | some n => exact rebind_of_free (by simpa using filled) fun other => absurd rfl other

end NameTable

namespace Context

variable {ctx ctx' : Context} {scope : NameScope} {t t' : NameTable} {s x : Symbol}
  {old name name' : Option String} {named : Symbol → Prop} {n : String}

theorem TableOf.unique (held : ctx.TableOf t scope) (held' : ctx.TableOf t' scope) : t' = t := by
  cases scope with
  | detached => exact held.elim
  | module m =>
    obtain ⟨r, read, rfl⟩ := held
    obtain ⟨r', read', rfl⟩ := held'
    rw [Checked.unique read read']
  | function f =>
    obtain ⟨r, read, names⟩ := held
    obtain ⟨r', read', names'⟩ := held'
    obtain rfl := Checked.unique read read'
    exact Option.some.inj (names'.symm.trans names)

/-- What has a home has a scope, unless its block is detached. -/
theorem WellFormed.nameScope (wf : ctx.WellFormed) {v : ValueRef} {r : ValueRecord}
    (read : ctx.value v = .ok r) (home : r.kind.home ≠ none) :
    ∃ scope, ctx.nameScope v = .ok scope := by
  unfold Context.nameScope
  rw [read, Checked.ok_bind]
  cases kind : r.kind with
  | global | function | argument => exact ⟨_, rfl⟩
  | instruction i =>
    obtain ⟨br, held, _⟩ := wf.instruction_listed (instruction_eq_ok.mpr ⟨r, read, kind⟩)
    dsimp only
    rw [held, Checked.ok_bind]
    cases br.parent with
    | none => exact ⟨_, rfl⟩
    | some f => exact ⟨_, rfl⟩
  | int | bytes | elementPtr | erased =>
    rw [kind] at home
    exact absurd rfl home

theorem Named.filled (named : ctx.Named) : ctx.symbolName s ≠ .ok (some "") := by
  intro live
  cases s with
  | value v =>
    obtain ⟨r, read, empty⟩ := valueName_eq_ok.mp live
    exact named.proper.values _ r (value_eq_ok.mp read).2.1 empty
  | block b =>
    obtain ⟨br, read, empty⟩ := symbolName_block.mp live
    exact named.proper.blocks _ br (block_eq_ok.mp read).2.1 empty

theorem symbolName_own (live : ctx.symbolName s = .ok old) :
    (ctx.setSymbolName old s).symbolName x = .ok name ↔ ctx.symbolName x = .ok name := by
  rw [symbolName_setSymbolName live]
  by_cases same : x = s
  · simp [same, live, eq_comm]
  · simp [same]

theorem names_own (live : ctx.symbolName s = .ok old) :
    (ctx.setSymbolName old s).Names scope x n ↔ ctx.Names scope x n :=
  and_congr (scoped_setSymbolName live) (symbolName_own live)

theorem NamesOnly.symbolName (only : ctx.NamesOnly named ctx') (live : ctx.symbolName s = .ok name)
    (others : ¬named s) : ctx'.symbolName s = .ok name' ↔ ctx.symbolName s = .ok name' := by
  constructor
  · intro live'
    obtain rfl := Checked.unique (only.kept s name live others) live'
    exact live
  · exact fun live => only.kept s name' live others

end Context

namespace Build

open Context

variable {ctx ctx' : Context} {f : FunctionRef} {s x : Symbol} {ss earlier later : List Symbol}
  {t : NameTable} {n : String} {u : Unit}

/-! ### Names are entered in order -/

theorem adopt_live (run : (adopt f s ctx).result = .ok (u, ctx')) :
    ∃ name, ctx'.symbolName s = .ok name := by
  rcases adopt_eq_ok run with ⟨live, rfl⟩ | ⟨n, bound, mid, live, entered, rfl⟩
  · exact ⟨none, live⟩
  · rcases bindIn_eq_ok entered with ⟨impossible, _⟩ | ⟨t, t', held, _, rfl⟩
    · cases impossible
    · exact ⟨bound, (symbolName_setSymbolName (symbolName_setTable held live)).mpr (.inl ⟨rfl, rfl⟩)⟩

theorem adoptAll_live (solid : ctx.Solid) (nodup : ss.Nodup)
    (run : (adoptAll f ss ctx).result = .ok (u, ctx')) (mem : s ∈ ss) :
    ∃ name, ctx'.symbolName s = .ok name := by
  induction ss generalizing ctx with
  | nil => cases mem
  | cons first rest ih =>
    obtain ⟨_, mid, entered, others⟩ := bind_eq_ok.mp run
    obtain ⟨new, nodup'⟩ := List.nodup_cons.mp nodup
    have solid' := (adopt_namesOnly first solid entered).solid solid
    rcases List.mem_cons.mp mem with rfl | mem'
    · obtain ⟨name, live⟩ := adopt_live entered
      exact ⟨name, (adoptAll_namesOnly solid' others).kept _ _ live new⟩
    · exact ih solid' nodup' others mem'

theorem adopt_table (run : (adopt f s ctx).result = .ok (u, ctx'))
    (held' : ctx'.TableOf t (.function f)) : ∃ before, ctx.TableOf before (.function f) ∧
      ∀ n x, t.find? n = some x ↔
        before.find? n = some x ∨ (x = s ∧ ctx'.symbolName s = .ok (some n)) := by
  rcases adopt_eq_ok run with ⟨live, rfl⟩ | ⟨own, bound, mid, live, entered, rfl⟩
  · refine ⟨t, held', fun n x => ?_⟩
    simp [live]
  · rcases bindIn_eq_ok entered with ⟨impossible, _⟩ | ⟨before, after, held, rebound, rfl⟩
    · cases impossible
    have live' : (ctx.setTable after (.function f)).symbolName s = .ok (some own) :=
      symbolName_setTable held live
    rcases tableOf_setTable held (tableOf_setSymbolName live' held') with ⟨_, rfl⟩ | ⟨other, _⟩
    · refine ⟨before, held, fun n x => ?_⟩
      rw [NameTable.find?_rebind rebound, symbolName_setSymbolName live']
      simp [or_comm, eq_comm]
    · exact absurd rfl other

theorem adoptAll_table (solid : ctx.Solid) (nodup : ss.Nodup)
    (run : (adoptAll f ss ctx).result = .ok (u, ctx')) (held' : ctx'.TableOf t (.function f)) :
    ∃ before, ctx.TableOf before (.function f) ∧ ∀ n x, t.find? n = some x ↔
      before.find? n = some x ∨ (x ∈ ss ∧ ctx'.symbolName x = .ok (some n)) := by
  induction ss generalizing ctx with
  | nil =>
    obtain ⟨_, rfl⟩ := pure_eq_ok.mp run
    exact ⟨t, held', by simp⟩
  | cons s rest ih =>
    obtain ⟨_, mid, first, run⟩ := bind_eq_ok.mp run
    obtain ⟨new, nodup'⟩ := List.nodup_cons.mp nodup
    have solid' := (adopt_namesOnly s solid first).solid solid
    obtain ⟨turn, held, after⟩ := ih solid' nodup' run
    obtain ⟨before, start, entered⟩ := adopt_table first held
    obtain ⟨name, live⟩ := adopt_live first
    have settled n : ctx'.symbolName s = .ok (some n) ↔ mid.symbolName s = .ok (some n) :=
      (adoptAll_namesOnly solid' run).symbolName live new
    refine ⟨before, start, fun n x => ?_⟩
    rw [after, entered, ← settled, List.mem_cons, or_assoc, or_and_right]
    refine or_congr_right (or_congr_left (and_congr_right fun same => ?_))
    rw [same]

theorem adopt_free (held : ctx.TableOf t (.function f)) (live : ctx.symbolName s = .ok (some n))
    (filled : n ≠ "") (free : t.find? n = none)
    (run : (adopt f s ctx).result = .ok (u, ctx')) : ctx'.symbolName s = .ok (some n) := by
  rcases adopt_eq_ok run with ⟨unnamed, _⟩ | ⟨own, bound, mid, live', entered, rfl⟩
  · cases Checked.unique live unnamed
  · obtain rfl := Option.some.inj (Checked.unique live live')
    rcases bindIn_eq_ok entered with ⟨impossible, _⟩ | ⟨before, after, held', rebound, rfl⟩
    · cases impossible
    obtain rfl := held.unique held'
    have kept : (before.rebind none n s).1 = some n :=
      NameTable.rebind_of_free filled fun _ => free
    rw [rebound] at kept
    obtain rfl : bound = some n := kept
    exact (symbolName_setSymbolName (symbolName_setTable held live)).mpr (.inl ⟨rfl, rfl⟩)

theorem adoptAll_grows (run : (adoptAll f ss ctx).result = .ok (u, ctx')) : ctx.Grows ctx' := by
  induction ss generalizing ctx with
  | nil =>
    obtain ⟨_, rfl⟩ := pure_eq_ok.mp run
    exact .refl ctx
  | cons s rest ih =>
    obtain ⟨_, mid, first, run⟩ := bind_eq_ok.mp run
    refine Grows.trans ?_ (ih run)
    cases s with
    | block b => exact (adoptBlockName_builds f b _ _ _ first).grows
    | value v => exact (adoptNames_builds f _ _ _ _ first).grows

/-- When the turn of a symbol comes, the names are bound that were bound before, and those that the
symbols ahead of it keep from then on. A name that is free then is kept. -/
theorem adoptAll_turn {fr : FunctionRecord} (solid : ctx.Solid)
    (nodup : (earlier ++ s :: later).Nodup) (known : ctx.function f = .ok fr)
    (run : (adoptAll f (earlier ++ s :: later) ctx).result = .ok (u, ctx')) :
    ∃ turn now, (adoptAll f earlier ctx).result = .ok ((), turn) ∧
      (adoptAll f (s :: later) turn).result = .ok ((), ctx') ∧ turn.function f = .ok now ∧
      (∀ n x, now.names.find? n = some x ↔
        fr.names.find? n = some x ∨ (x ∈ earlier ∧ ctx'.symbolName x = .ok (some n))) ∧
      ∀ n, n ≠ "" → ctx.symbolName s = .ok (some n) → now.names.find? n = none →
        ctx'.symbolName s = .ok (some n) := by
  obtain ⟨turn, ahead, run⟩ := adoptAll_append.mp run
  obtain ⟨nodup₁, nodup₂, apart⟩ := List.nodup_append.mp nodup
  obtain ⟨last, _⟩ := List.nodup_cons.mp nodup₂
  obtain ⟨now, known', _⟩ := (adoptAll_grows ahead).function known
  have only := adoptAll_namesOnly solid ahead
  have solid' := only.solid solid
  refine ⟨turn, now, ahead, run, known', fun n x => ?_, fun n filled live free => ?_⟩
  · obtain ⟨before, held, bound⟩ := adoptAll_table solid nodup₁ ahead (tableOf_function known')
    obtain rfl := (tableOf_function known).unique held
    refine (bound n x).trans (or_congr_right (and_congr_right fun mem => ?_))
    obtain ⟨name, live⟩ := adoptAll_live solid nodup₁ ahead mem
    have settled : x ∉ s :: later := fun mem' => apart x mem x mem' rfl
    exact ((adoptAll_namesOnly solid' run).symbolName live settled).symm
  · have live' : turn.symbolName s = .ok (some n) :=
      only.kept s _ live fun mem => apart s mem s List.mem_cons_self rfl
    obtain ⟨_, next, entered, rest⟩ := bind_eq_ok.mp run
    have kept := adopt_free (tableOf_function known') live' filled free entered
    have solid'' := (adopt_namesOnly s solid' entered).solid solid'
    exact (adoptAll_namesOnly solid'' rest).kept s _ kept last

theorem nodup_entrants {b : BlockRef} {is : List InstructionRef} (nodup : is.Nodup) :
    (entrants b is).Nodup := by
  refine List.nodup_cons.mpr ⟨by simp, List.Pairwise.map _ (fun i j apart same => ?_) nodup⟩
  exact apart (congrArg InstructionRef.mk (Symbol.value.inj same))

/-- The names that an inserted block brings are entered in turns: the block's own, then those of its
instructions in order. -/
theorem insertBlock_turns (wf : ctx.WellFormed) (named : ctx.Named) (solid : ctx.Solid)
    {b : BlockRef} {before : Option BlockRef}
    (run : (insertBlock b f before ctx).result = .ok (u, ctx')) :
    ∃ br fr position, ctx.block b = .ok br ∧ ctx.function f = .ok fr ∧
      ctx.blockPosition f before = .ok position ∧
      ∀ earlier s later, entrants b br.instructions = earlier ++ s :: later →
        ∃ turn now, (adoptAll f earlier (ctx.placeBlock b f position)).result = .ok ((), turn) ∧
          (adoptAll f (s :: later) turn).result = .ok ((), ctx') ∧ turn.function f = .ok now ∧
          (∀ n x, now.names.find? n = some x ↔
            fr.names.find? n = some x ∨ (x ∈ earlier ∧ ctx'.symbolName x = .ok (some n))) ∧
          ∀ n, ctx.symbolName s = .ok (some n) → now.names.find? n = none →
            ctx'.symbolName s = .ok (some n) := by
  obtain ⟨br, fr, position, read, _, known, place, adopted⟩ := insertBlock_adopts run
  refine ⟨br, fr, position, read, known, place, fun earlier s later order => ?_⟩
  have placed : ctx.NamesNone (ctx.placeBlock b f position) := placeBlock_namesNone read known
  have nodup : (entrants b br.instructions).Nodup := nodup_entrants (wf.blockSound read).nodup
  rw [order] at adopted nodup
  obtain ⟨turn, now, ahead, rest, known', bound, kept⟩ :=
    adoptAll_turn (placed.solid solid) nodup (function_placeBlock known) adopted
  refine ⟨turn, now, ahead, rest, known', bound, fun n live free => ?_⟩
  have filled : n ≠ "" := by
    rintro rfl
    exact named.filled live
  exact kept n filled (placed.kept s _ live not_false) free

/-! ### A symbol is renamed to the name it has -/

theorem bindIn_runs {scope : NameScope} {old bound : Option String} {name : String}
    {t' : NameTable} (held : ctx.TableOf t scope) (rebound : t.rebind old name s = (bound, t')) :
    (bindIn scope old name s ctx).result = .ok (bound, ctx.setTable t' scope) := by
  cases scope with
  | detached => exact held.elim
  | module m =>
    obtain ⟨r, live, rfl⟩ := held
    simp only [bindIn, rebindInModule, bind_eq_ok, read_eq_ok, change_eq_ok, pure_eq_ok]
    exact ⟨r, ctx, ⟨live, rfl⟩, (), _, rfl, by rw [rebound], by rw [rebound]; rfl⟩
  | function f =>
    obtain ⟨r, read, names⟩ := held
    obtain ⟨fr, kind, rfl⟩ := function_of_names? names
    simp only [bindIn, rebindInFunction, bind_eq_ok, read_eq_ok, change_eq_ok, pure_eq_ok]
    exact ⟨fr, ctx, ⟨function_eq_ok.mpr ⟨r, read, kind⟩, rfl⟩, (), _, rfl, by rw [rebound],
      by rw [rebound]; rfl⟩

theorem bindIn_own {scope : NameScope} {old : Option String} (wf : ctx.WellFormed)
    (named : ctx.Named) (live : ctx.symbolName s = .ok old)
    (home : ctx.Scoped scope s ∨ scope = .detached) :
    ∃ mid, (bindIn scope old (old.getD "") s ctx).result = .ok (old, mid) ∧
      (∀ x name, ctx.symbolName x = .ok name → (mid.setSymbolName old s).symbolName x = .ok name) ∧
      ∀ scope' x n, (mid.setSymbolName old s).Names scope' x n ↔ ctx.Names scope' x n := by
  have filled : old ≠ some "" := by
    rintro rfl
    exact named.filled live
  rcases home with inScope | rfl
  · obtain ⟨t, held⟩ := wf.table_of_scoped inScope
    have own : t.rebind old (old.getD "") s = (old, (t.rebind old (old.getD "") s).2) :=
      Prod.ext (NameTable.rebind_own filled) rfl
    have live' : (ctx.setTable (t.rebind old (old.getD "") s).2 scope).symbolName s = .ok old :=
      symbolName_setTable held live
    refine ⟨_, bindIn_runs held own, fun x name called => ?_, fun scope' x n => ?_⟩
    · exact (symbolName_own live').mpr (symbolName_setTable held called)
    · exact (names_own live').trans (names_setTable held)
  · have loose : looseName (old.getD "") = old := by
      cases old with
      | none => rfl
      | some n => exact if_neg (by simpa using filled)
    refine ⟨ctx, pure_eq_ok.mpr ⟨loose, rfl⟩, fun x name called => ?_, fun scope' x n => ?_⟩
    · exact (symbolName_own live).mpr called
    · exact names_own live

theorem setValueName_runs {v : ValueRef} {scope : NameScope} {r : ValueRecord} {name : String}
    {bound : Option String} {mid : Context} (home : ctx.nameScope v = .ok scope)
    (read : ctx.value v = .ok r) (full : name.isEmpty = false → ctx.Nameable (.value v))
    (entered : (bindIn scope r.name name (.value v) ctx).result = .ok (bound, mid)) :
    (setValueName v name ctx).result = .ok ((), mid.setValueName v bound) := by
  simp only [setValueName_eq, bind_eq_ok, read_eq_ok]
  refine ⟨scope, ctx, ⟨home, rfl⟩, r, ctx, ⟨read, rfl⟩, ?_⟩
  cases empty : name.isEmpty with
  | true =>
    simp only [Bool.not_true, Bool.false_eq_true, if_false, bind_eq_ok, change_eq_ok]
    exact ⟨bound, mid, entered, rfl⟩
  | false =>
    obtain ⟨again, shape, read', shaped, full⟩ := full empty
    obtain rfl := Checked.unique read read'
    simp only [Bool.not_false, if_true, bind_eq_ok, read_eq_ok, require_eq_ok, change_eq_ok]
    exact ⟨shape, ctx, ⟨shaped, rfl⟩, (), ctx, ⟨by simp [full], rfl⟩, bound, mid, entered, rfl⟩

theorem setBlockName_runs {b : BlockRef} {br : BlockRecord} {name : String}
    {bound : Option String} {mid : Context} (read : ctx.block b = .ok br)
    (entered : (bindIn br.nameScope br.name name (.block b) ctx).result = .ok (bound, mid)) :
    (setBlockName b name ctx).result = .ok ((), mid.setBlockName b bound) := by
  simp only [setBlockName, bind_eq_ok, read_eq_ok]
  refine ⟨br, ctx, ⟨read, rfl⟩, ?_⟩
  unfold BlockRecord.nameScope at entered
  cases parent : br.parent with
  | some f =>
    rw [parent] at entered
    exact bind_eq_ok.mpr ⟨bound, mid, entered, rfl⟩
  | none =>
    rw [parent] at entered
    exact bind_eq_ok.mpr ⟨bound, mid, entered, rfl⟩

/-- A global, function, argument or instruction can be renamed to the name it has, and nothing changes
by it. -/
theorem setValueName_own (wf : ctx.WellFormed) (named : ctx.Named) (solid : ctx.Solid)
    {v : ValueRef} {r : ValueRecord} (read : ctx.value v = .ok r) (home : r.kind.home ≠ none) :
    ∃ ctx', (setValueName v (r.name.getD "") ctx).result = .ok ((), ctx') ∧
      ctx.SameNames ctx' := by
  obtain ⟨scope, found⟩ := wf.nameScope read home
  have full (some : (r.name.getD "").isEmpty = false) : ctx.Nameable (.value v) := by
    cases called : r.name with
    | none => simp [called] at some
    | some n => exact solid (.value v) n (valueName_eq_ok.mpr ⟨r, read, called⟩)
  have live : ctx.symbolName (.value v) = .ok r.name := valueName_eq_ok.mpr ⟨r, read, rfl⟩
  obtain ⟨mid, entered, names, same⟩ :=
    bindIn_own wf named live ((nameScope_eq_ok found).imp_right And.left)
  have run := setValueName_runs found read full entered
  obtain ⟨growth, _⟩ := setValueName_spec wf run
  exact ⟨_, run, named.sameNames (setValueName_named _ _ _ _ _ run named) growth.toGrows names same⟩

theorem setBlockName_own (wf : ctx.WellFormed) (named : ctx.Named) {b : BlockRef}
    {br : BlockRecord} (read : ctx.block b = .ok br) :
    ∃ ctx', (setBlockName b (br.name.getD "") ctx).result = .ok ((), ctx') ∧
      ctx.SameNames ctx' := by
  have live : ctx.symbolName (.block b) = .ok br.name := symbolName_block.mpr ⟨br, read, rfl⟩
  obtain ⟨mid, entered, names, same⟩ :=
    bindIn_own wf named live ((blockScope read).imp_right And.left)
  have run := setBlockName_runs read entered
  obtain ⟨growth, _⟩ := setBlockName_spec wf run
  exact ⟨_, run, named.sameNames (setBlockName_named _ _ _ _ _ run named) growth.toGrows names same⟩

end Build
end ModuleIR
