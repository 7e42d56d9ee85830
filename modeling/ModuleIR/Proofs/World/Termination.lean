import ModuleIR.Proofs.Listing.Recursions
import ModuleIR.Proofs.Steps.Belongings
import ModuleIR.Proofs.World.Reachable

set_option autoImplicit false

/-!
# What goes on without a bound ends

Types are made of types made before them, and pointer arithmetic is made over values made before it;
the tables that make them unique give back older handles, and an erasure takes entries away, but neither
turns a reference forward. In every reachable world, therefore, the recursions through types, through
references and through bases end on every handle, and the erasure of a module ends after no more rounds
of its purge than there are pointers in the table of constants, and one.
-/
namespace ModuleIR

namespace Context

open Running

variable {ctx : Context} {mr : ModuleRecord}

/-- The erasure with its purge as the loop that it is, if so many rounds are made. -/
def eraseContentsRunning (ctx : Context) (record : ModuleRecord) (rounds : Nat) : Running Context := do
  let functionless ← (record.functions.foldlM eraseFunctionTree ctx : Checked Context)
  let empty ← (record.globals.foldlM (fun c g => c.eraseValue g.value) functionless : Checked Context)
  empty.purgeRunning rounds

/-- An erasure ends within as many rounds as there are pointers before its walk, and one. -/
theorem eraseContentsRunning_eq {rounds : Nat} (enough : ctx.pointerEntries < rounds) :
    ctx.eraseContentsRunning mr rounds = ended (ctx.eraseContents mr) := by
  have walk : ctx.eraseContentsRunning mr rounds =
      (liftM (ctx.walkContents mr) : Running Context) >>= (·.purgeRunning rounds) := by
    rw [eraseContentsRunning, walkContents, liftM_bind, bind_assoc]
  rw [walk, eraseContents_eq, liftM_eq]
  cases walked : ctx.walkContents mr with
  | ok empty =>
    rw [pointerEntries, ← constantTable_walkContents walked] at enough
    exact purgeRunning_eq enough
  | error violation => rfl

end Context

namespace World

open Context

variable {w : World} {ctx : Context}

/-- In a reachable world what is inside a type stands before it, and so do the operands of pointer
arithmetic. The texts of types, anchors and references are found by recursions that end on every
handle, with no more calls inside one another than there are places up to it. A purge ends after at
most one round more than there are pointers in the table, in whatever state the context is, and so
does the erasure of a module, whose walk takes none of them. -/
theorem recursions_end (reachable : w.Reachable) (mem : ctx ∈ w.contexts) :
    (∀ t s, ctx.shape t = .ok s → ∀ u ∈ s.inner, u.ctx = t.ctx ∧ u.index < t.index) ∧
    (∀ v r e, ctx.value v = .ok r → r.kind = .elementPtr e →
      ∀ u ∈ e.base :: e.indices, u.ctx = v.ctx ∧ u.index < v.index) ∧
    (∀ t calls, t.index + 1 ≤ calls →
      ctx.typeTextRunning calls t = Running.ended (ctx.describeType t)) ∧
    (∀ v calls, v.index + 1 ≤ calls → ctx.anchorRunning calls v = Running.ended (ctx.anchor v)) ∧
    (∀ slots v types calls, ctx.types.size ≤ types → v.index + 1 ≤ calls →
      Listing.refRunning ctx slots types calls v = Running.ended (Listing.ref ctx slots v).render) ∧
    (∀ (c : Context) rounds, c.pointerEntries + 1 ≤ rounds →
      c.purgeRunning rounds = Running.ended c.purgeConstants) ∧
    ∀ m mr taken rounds, ctx.takeModule m = .ok (mr, taken) → ctx.pointerEntries + 1 ≤ rounds →
      ∃ left, taken.eraseContents mr = .ok left ∧
        taken.eraseContentsRunning mr rounds = Running.ended (.ok left) := by
  have wf := reachable.sound.wellFormed ctx mem
  refine ⟨fun t s read u inside => ?_, fun v r e read kind u operand => ?_,
    fun t calls enough => wf.typeTextRunning_eq enough,
    fun v calls enough => anchorRunning_eq wf.basesBefore enough,
    fun slots v types calls all enough => Listing.refRunning_eq wf all enough,
    fun c rounds enough => purgeRunning_eq enough, fun m mr taken rounds gone enough => ?_⟩
  · obtain ⟨owner, stored⟩ := shape_eq_ok.mp read
    rw [owner]
    exact wf.inner _ s stored u inside
  · have sound := wf.elementPtrSound read kind
    have owner := (value_eq_ok.mp read).1
    rcases List.mem_cons.mp operand with rfl | index
    · obtain ⟨_, held, _⟩ := sound.base
      exact ⟨(value_eq_ok.mp held).1.trans owner.symm, sound.baseBefore⟩
    · obtain ⟨_, _, held, _⟩ := sound.indices u index
      exact ⟨(value_eq_ok.mp held).1.trans owner.symm, sound.indicesBefore u index⟩
  · obtain ⟨r, live, same⟩ := Build.takeModule_eq_ok.mp gone
    obtain ⟨rfl, rfl⟩ := Prod.mk.inj same
    obtain ⟨left, erased, _⟩ := eraseContents_spec wf live
    refine ⟨left, erased, ?_⟩
    rw [← erased]
    exact eraseContentsRunning_eq enough

/-- A pointer into a global and one over it, both asked for after pointers of another module, one of them
twice; the other module is erased. -/
def chained : World := after [.context, .request 0 (.integerType 8), .upcast (.type .any ⟨⟨1⟩, 0⟩),
  .request 0 (.pointerType ⟨⟨1⟩, 0⟩ .generic), .upcast (.type .any ⟨⟨1⟩, 1⟩),
  .request 0 (.functionType ⟨⟨1⟩, 0⟩ [⟨⟨1⟩, 1⟩] true), .request 0 (.createModule "gone"),
  .request 0 (.createModule "m"),
  .request 0 (.createGlobal ⟨⟨1⟩, 0⟩ { type := ⟨⟨1⟩, 0⟩, name := "f" }),
  .request 0 (.createGlobal ⟨⟨1⟩, 1⟩ { type := ⟨⟨1⟩, 0⟩, name := "g" }),
  .request 0 (.constantInt (.ofUInt64 16 0) (.unsigned rfl 0)), .upcast (.value .constant ⟨⟨1⟩, 0⟩),
  .upcast (.value .constant ⟨⟨1⟩, 1⟩), .upcast (.value .constant ⟨⟨1⟩, 2⟩),
  .request 0 (.elementPtr ⟨⟨⟨1⟩, 0⟩⟩ [⟨⟨⟨1⟩, 2⟩⟩] false),
  .request 0 (.elementPtr ⟨⟨⟨1⟩, 1⟩⟩ [⟨⟨⟨1⟩, 2⟩⟩] false),
  .request 0 (.elementPtr ⟨⟨⟨1⟩, 4⟩⟩ [⟨⟨⟨1⟩, 2⟩⟩] true),
  .request 0 (.elementPtr ⟨⟨⟨1⟩, 1⟩⟩ [⟨⟨⟨1⟩, 2⟩⟩] false), .request 0 (.eraseModule ⟨⟨1⟩, 0⟩)]

theorem chained_recursions_end : ∃ ctx ∈ chained.contexts,
    ctx.typeTextRunning 3 ⟨⟨1⟩, 2⟩ = Running.ended (.ok "i8 (i8*, ...)") ∧
    ctx.anchorRunning 6 ⟨⟨1⟩, 5⟩ = Running.ended (.ok (.module ⟨⟨1⟩, 1⟩)) ∧
    Listing.refRunning ctx {} 4 6 ⟨⟨1⟩, 5⟩ = Running.ended (.ok
      "getelementptr inbounds (i8, i8* getelementptr (i8, i8* @g, i16 0), i16 0)") ∧
    ∃ mr taken left, ctx.takeModule ⟨⟨1⟩, 1⟩ = .ok (mr, taken) ∧
      taken.eraseContentsRunning mr 3 = Running.ended (.ok left) ∧ left.pointerEntries = 0 := by
  have computed : (chained.contexts[0]?).any (fun ctx : Context =>
      ctx.describeType ⟨⟨1⟩, 2⟩ = .ok "i8 (i8*, ...)" ∧
      ctx.anchor ⟨⟨1⟩, 5⟩ = .ok (.module ⟨⟨1⟩, 1⟩) ∧
      (Listing.ref ctx {} ⟨⟨1⟩, 5⟩).render = .ok
        "getelementptr inbounds (i8, i8* getelementptr (i8, i8* @g, i16 0), i16 0)" ∧
      ctx.types.size = 4 ∧ ctx.pointerEntries = 2 ∧
      (ctx.takeModule ⟨⟨1⟩, 1⟩ >>= fun (mr, taken) =>
        (taken.eraseContents mr).map (·.pointerEntries)) = .ok 0) = true := by
    decide +kernel
  obtain ⟨ctx, found, computed⟩ := (Option.any_eq_true _ _).mp computed
  obtain ⟨type, anchor, ref, four, two, erased⟩ := of_decide_eq_true computed
  obtain ⟨⟨mr, taken⟩, gone, erased⟩ := Checked.bind_eq_ok.mp erased
  obtain ⟨left, run, none⟩ := Checked.map_eq_ok.mp erased
  have mem := List.mem_of_getElem? found
  obtain ⟨_, _, types, anchors, refs, _, erasures⟩ :=
    recursions_end (reachable_after (by decide +kernel)) mem
  obtain ⟨left', run', ended⟩ := erasures _ mr taken 3 gone (by omega)
  obtain rfl := Checked.unique run run'
  refine ⟨ctx, mem, ?_, ?_, ?_, mr, taken, left, gone, ended, none⟩
  · rw [types ⟨⟨1⟩, 2⟩ 3 (by decide), type]
  · rw [anchors ⟨⟨1⟩, 5⟩ 6 (by decide), anchor]
  · rw [refs {} ⟨⟨1⟩, 5⟩ 4 6 (by omega) (by decide), ref]

end World
end ModuleIR
