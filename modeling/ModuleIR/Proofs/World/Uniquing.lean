import Mathlib.Data.List.Nodup
import ModuleIR.Proofs.Steps.Belongings
import ModuleIR.Proofs.Steps.Tables
import ModuleIR.Proofs.World.Reachable

set_option autoImplicit false

/-!
# The tables of uniqued entities

No content stands twice in the table of constants: a constant is tabled under its content only when
the content is not found there, and an erasure only takes entries out. So the table finds a constant
under its content, and as many constants are counted as are alive.
-/
namespace ModuleIR

namespace Table

variable {κ α : Type} [DecidableEq κ] {t : Table κ α}

theorem nodup_keys_insert (nodup : t.keys.Nodup) (k : κ) (a : α) : (t.insert k a).keys.Nodup := by
  have kept : (t.erase k).keys.Nodup := nodup.sublist (List.filter_sublist.map _)
  have fresh : k ∉ (t.erase k).keys := by
    intro mem
    obtain ⟨entry, inside, same⟩ := List.mem_map.mp mem
    simpa [same] using (List.mem_filter.mp inside).2
  have keys : (t.insert k a).keys = (t.erase k).keys ++ [k] := by simp [keys, insert]
  rw [keys, List.nodup_append]
  exact ⟨kept, List.nodup_singleton k, by
    rintro j mem _ last rfl
    exact fresh (List.mem_singleton.mp last ▸ mem)⟩

theorem find?_eq_some_iff (nodup : t.keys.Nodup) {k : κ} {a : α} :
    t.find? k = some a ↔ (k, a) ∈ t.entries := by
  obtain ⟨entries⟩ := t
  change (entries.map (·.1)).Nodup at nodup
  change entries.lookup k = some a ↔ (k, a) ∈ entries
  induction entries with
  | nil => simp
  | cons entry rest ih =>
    obtain ⟨fresh, others⟩ := List.nodup_cons.mp nodup
    obtain ⟨j, b⟩ := entry
    rw [lookup_cons, List.mem_cons, ← ih others]
    by_cases same : k = j
    · subst same
      have absent : rest.lookup k ≠ some a := fun found =>
        fresh (List.mem_map.mpr ⟨(k, a), (ih others).mp found, rfl⟩)
      simp [absent, eq_comm]
    · simp [same]

end Table

namespace Context

variable {ctx ctx' : Context} {m : ModuleRef} {mr : ModuleRecord}

def Distinct (ctx : Context) : Prop := ctx.constantTable.keys.Nodup

theorem Interns.distinct (interns : ctx.Interns ctx') (distinct : ctx.Distinct) :
    ctx'.Distinct := by
  induction interns with
  | rest id types typeTable constantTable =>
    rw [Distinct, constantTable]
    exact distinct
  | @type ctx shape params =>
    rw [internType]
    split
    · exact distinct
    · exact distinct
  | @constant ctx key record =>
    rw [internConstant]
    split
    · exact distinct
    · exact Table.nodup_keys_insert distinct _ _
  | trans _ _ first second => exact second (first distinct)

/-- Live constants of one content are one. -/
theorem eq_of_key (wf : ctx.WellFormed) (distinct : ctx.Distinct) {v v' : ValueRef}
    {r r' : ValueRecord} {key : ConstantKey} (read : ctx.value v = .ok r)
    (read' : ctx.value v' = .ok r') (content : r.kind.key? = some key)
    (content' : r'.kind.key? = some key) : v = v' := by
  have found := (Table.find?_eq_some_iff distinct).mpr (wf.tabled v r key read content)
  rw [(Table.find?_eq_some_iff distinct).mpr (wf.tabled v' r' key read' content')] at found
  exact (Option.some.inj found).symm

/-- The constants that leave the table with a module are its pointer arithmetic, each counted once. -/
theorem Erases.numConstants (e : ctx.Erases m ctx') (wf : ctx.WellFormed) (distinct : ctx.Distinct)
    (distinct' : ctx'.Distinct) (live : ctx.module m = .ok mr) :
    ∃ gone : List ValueRef, gone.Nodup ∧ (∀ v, v ∈ gone ↔ ctx.OwnsPointer mr v) ∧
      ctx'.numConstants + gone.length = ctx.numConstants := by
  classical
  have goes (entry : ConstantKey × ValueRef) (mem : entry ∈ ctx.constantTable.entries) :
      ctx.OwnsPointer mr entry.2 ↔ ctx.BelongsTo m entry.2 := ownsPointer_of_entry wf live mem
  have nodup : ctx.constantTable.entries.Nodup := List.Nodup.of_map _ distinct
  have nodup' : ctx'.constantTable.entries.Nodup := List.Nodup.of_map _ distinct'
  let out := ctx.constantTable.entries.filter fun entry => ctx.OwnsPointer mr entry.2
  let kept := ctx.constantTable.entries.filter fun entry => ¬ctx.OwnsPointer mr entry.2
  have left : ctx'.constantTable.entries.Perm kept := by
    refine (List.perm_ext_iff_of_nodup nodup' (nodup.filter _)).mpr fun entry => ?_
    rw [e.constants entry.1 entry.2, List.mem_filter, decide_eq_true_eq]
    exact and_congr_right fun mem => not_congr (goes entry mem).symm
  refine ⟨out.map (·.2), ?_, ?_, ?_⟩
  · refine List.Nodup.map_on ?_ (nodup.filter _)
    intro entry mem entry' mem' same
    obtain ⟨r, read, key⟩ := wf.constants entry.1 entry.2 (List.mem_filter.mp mem).1
    obtain ⟨r', read', key'⟩ := wf.constants entry'.1 entry'.2 (List.mem_filter.mp mem').1
    rw [same] at read
    obtain rfl := Checked.unique read read'
    exact Prod.ext (Option.some.inj (key.symm.trans key')) same
  · intro v
    simp only [List.mem_map, out, List.mem_filter, decide_eq_true_eq]
    constructor
    · rintro ⟨entry, ⟨_, owned⟩, rfl⟩
      exact owned
    · intro owned
      have ⟨r, p, read, kind, _⟩ := owned
      have tabled := wf.tabled v r (.elementPtr p.base p.indices p.inBounds) read (by rw [kind]; rfl)
      exact ⟨(_, v), ⟨tabled, owned⟩, rfl⟩
  · rw [List.length_map]
    change ctx'.constantTable.entries.length + out.length = ctx.constantTable.entries.length
    rw [left.length_eq, Nat.add_comm]
    have split := List.length_eq_length_filter_add
      (l := ctx.constantTable.entries) fun entry => decide (ctx.OwnsPointer mr entry.2)
    simpa [out, kept] using split.symm

end Context

theorem World.Reachable.distinct {w : World} (reachable : w.Reachable) :
    ∀ ctx ∈ w.contexts, ctx.Distinct := by
  refine reachable.invariant (fun _ => List.nodup_nil) fun ctx ctx' request answers _ _ run before => ?_
  by_cases erasure : ∃ m, request = .eraseModule m
  · obtain ⟨m, rfl⟩ := erasure
    obtain ⟨built, _⟩ := Request.silent_eq_ok run
    exact before.sublist ((Build.eraseModule_entries built).map _)
  · have interns := Request.run_interns (fun m same => erasure ⟨m, same⟩) ctx answers ctx' run
    exact interns.distinct before

end ModuleIR
