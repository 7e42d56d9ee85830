import ModuleIR.Proofs.Listing.Operands
import ModuleIR.Proofs.World.Forest
import ModuleIR.Proofs.World.Naming
import ModuleIR.Proofs.World.Uniquing

set_option autoImplicit false

/-!
# Texts of operands

Inside a function of a reachable world an operand is known by its text: no two values that may be
written there are printed alike.
-/
namespace ModuleIR

namespace Context

variable {ctx : Context} {m : ModuleRef} {f : FunctionRef} {v : ValueRef}

def operandText (ctx : Context) (f : FunctionRef) (v : ValueRef) : Checked String := do
  let globals ← ctx.globalSlots (← ctx.function f).module
  let locals ← ctx.localSlots f
  (Listing.operand ctx { globals, locals } v).render

/-- The values that are told apart in a function of the module: integer and byte constants, what is
at home in the module, which are its globals, its functions and the pointer arithmetic whose bases end
at one of them, the arguments of the function, and the instructions of its blocks that have a value. -/
inductive OperandOf (ctx : Context) (m : ModuleRef) (f : FunctionRef) (v : ValueRef) : Prop
  | int {r : ValueRecord} {n : WideInt} (read : ctx.value v = .ok r) (kind : r.kind = .int n)
  | bytes {r : ValueRecord} {bytes : List UInt8} (read : ctx.value v = .ok r)
      (kind : r.kind = .bytes bytes)
  | home (anchored : ctx.Anchored v (.module m))
  | argument {a : ArgumentRecord} (live : ctx.argument ⟨v⟩ = .ok a) (parent : a.parent = f)
  | instruction {r : ValueRecord} {i : InstructionRecord} {b : BlockRecord}
      (read : ctx.value v = .ok r) (kind : r.kind = .instruction i)
      (block : ctx.block i.parent = .ok b) (placed : b.parent = some f)
      (solid : ctx.shape r.type ≠ .ok .void)

theorem OperandOf.usable (operand : ctx.OperandOf m f v) :
    ctx.Usable m f v := by
  have sounds {r : ValueRecord} (read : ctx.value v = .ok r) (other : ∀ i, r.kind ≠ .instruction i) :
      ¬ctx.Mute v := fun mute => by
    obtain ⟨i, kind⟩ := mute_instruction mute read
    exact other i kind
  cases operand with
  | int read kind => exact ⟨.free, .int read kind, trivial, sounds read (by simp [kind])⟩
  | bytes read kind => exact ⟨.free, .bytes read kind, trivial, sounds read (by simp [kind])⟩
  | home anchored =>
    obtain ⟨r, read⟩ := anchored.live
    refine ⟨.module m, anchored, rfl, sounds read fun i kind => ?_⟩
    have content := (anchored_iff read).mp anchored
    rw [kind] at content
    obtain ⟨b, _, same⟩ := content
    cases parent : b.parent <;> rw [parent] at same <;> cases same
  | argument live parent =>
    obtain ⟨r, read, kind⟩ := argument_eq_ok.mp live
    exact ⟨.function f, parent ▸ .argument read kind, rfl, sounds read (by simp [kind])⟩
  | instruction read kind block placed solid =>
    refine ⟨.function f, .placed read kind block placed, rfl, ?_⟩
    rintro ⟨r', _, read', _, _, void⟩
    obtain rfl := Checked.unique read read'
    exact solid void

end Context

namespace World

open Context

variable {w : World} {ctx : Context} {f : FunctionRef} {fr : FunctionRecord}

/-- The values that may be operands in a function all have texts there, and no two of them have the
same. -/
theorem operands_told_apart (reachable : w.Reachable) (mem : ctx ∈ w.contexts)
    (known : ctx.function f = .ok fr) :
    (∀ v, ctx.OperandOf fr.module f v → ∃ text, ctx.operandText f v = .ok text) ∧
    ∀ v v' text, ctx.OperandOf fr.module f v → ctx.OperandOf fr.module f v' →
      ctx.operandText f v = .ok text → ctx.operandText f v' = .ok text → v = v' := by
  have wf := reachable.sound.wellFormed ctx mem
  have made := reachable.allWellMade ctx mem
  have distinct := reachable.distinct ctx mem
  obtain ⟨mr, live, _⟩ := wf.function_listed known
  obtain ⟨globals, numbered⟩ := globalSlots_reads wf live
  obtain ⟨locals, counted⟩ := localSlots_reads wf known
  have text_eq (v : ValueRef) :
      ctx.operandText f v = (Listing.operand ctx { globals, locals } v).render := by
    rw [operandText, known, Checked.ok_bind, numbered, Checked.ok_bind, counted, Checked.ok_bind]
  have uniqued (v v' : ValueRef) (r r' : ValueRecord) (key : ConstantKey) (read : ctx.value v = .ok r)
      (read' : ctx.value v' = .ok r') (content : r.kind.key? = some key)
      (content' : r'.kind.key? = some key) : v = v' := by
    have found := (Table.find?_eq_some_iff distinct).mpr (wf.tabled v r key read content)
    rw [(Table.find?_eq_some_iff distinct).mpr (wf.tabled v' r' key read' content')] at found
    exact (Option.some.inj found).symm
  refine ⟨fun v operand => ?_, fun v v' text operand operand' done done' => ?_⟩
  · obtain ⟨_, home, _⟩ := operand.usable
    rw [text_eq]
    exact Listing.render_eq_ok.mpr ((Listing.faultless_operand wf).mpr home.live)
  · rw [text_eq] at done done'
    have told := Listing.tellsApart wf live numbered known rfl counted (reachable.named ctx mem)
      (fun v r read => (made v r read).1) uniqued (v.index + 1)
    exact (told _ v v' text text [] [] (operand.usable) (operand'.usable) done done'
      Text.stops_nil Text.stops_nil rfl).1

/-- Two calls, the first one number 1 of its function, the other named like this number. -/
def namedByNumber : World := after [.context, .request 0 (.integerType 32),
  .upcast (.type .any ⟨⟨1⟩, 0⟩), .request 0 (.functionType ⟨⟨1⟩, 0⟩ [] false),
  .request 0 (.createModule "m"),
  .request 0 (.createFunction ⟨⟨⟨1⟩, 1⟩⟩ .external "f" ⟨⟨1⟩, 0⟩),
  .request 0 (.createBlock "" (some ⟨⟨⟨1⟩, 0⟩⟩) none), .upcast (.value .any ⟨⟨1⟩, 0⟩),
  .request 0 (.createCall ⟨⟨1⟩, 0⟩ [] "" ⟨⟨1⟩, 0⟩),
  .request 0 (.createCall ⟨⟨1⟩, 0⟩ [] "1" ⟨⟨1⟩, 0⟩)]

theorem namedByNumber_told_apart : ∃ ctx ∈ namedByNumber.contexts, ∃ text text',
    ctx.operandText ⟨⟨⟨1⟩, 0⟩⟩ ⟨⟨1⟩, 1⟩ = .ok text ∧ ctx.operandText ⟨⟨⟨1⟩, 0⟩⟩ ⟨⟨1⟩, 2⟩ = .ok text' ∧
      text = "i32 %1" ∧ text' ≠ "i32 %1" := by
  have computed : (namedByNumber.contexts[0]?).any (fun ctx =>
      (ctx.function ⟨⟨⟨1⟩, 0⟩⟩).toOption.isSome ∧
        (ctx.block ⟨⟨1⟩, 0⟩).map (·.parent) = .ok (some ⟨⟨⟨1⟩, 0⟩⟩) ∧
        ctx.shape ⟨⟨1⟩, 0⟩ = .ok (.integer 32) ∧
        (∀ i ∈ [1, 2], (ctx.valueType ⟨⟨1⟩, i⟩) = .ok ⟨⟨1⟩, 0⟩ ∧
          (ctx.instruction ⟨⟨⟨1⟩, i⟩⟩).map (·.parent) = .ok ⟨⟨1⟩, 0⟩) ∧
        ctx.operandText ⟨⟨⟨1⟩, 0⟩⟩ ⟨⟨1⟩, 1⟩ = .ok "i32 %1") = true := by decide +kernel
  obtain ⟨ctx, found, computed⟩ := (Option.any_eq_true _ _).mp computed
  obtain ⟨function, placed, shaped, calls, text⟩ := of_decide_eq_true computed
  obtain ⟨fr, known⟩ := Option.isSome_iff_exists.mp function
  obtain ⟨br, block, parent⟩ := Checked.map_eq_ok.mp placed
  have mem : ctx ∈ namedByNumber.contexts := List.mem_of_getElem? found
  have operand (i : Nat) (call : i ∈ [1, 2]) :
      ctx.OperandOf fr.module ⟨⟨⟨1⟩, 0⟩⟩ ⟨⟨1⟩, i⟩ := by
    obtain ⟨typed, inside⟩ := calls i call
    obtain ⟨ir, made, home⟩ := Checked.map_eq_ok.mp inside
    obtain ⟨r, read, kind⟩ := instruction_eq_ok.mp made
    obtain ⟨r', read', type⟩ := valueType_eq_ok.mp typed
    obtain rfl := Checked.unique read read'
    refine .instruction read kind (home ▸ block) parent ?_
    rw [type, shaped]
    rintro impossible
    cases impossible
  obtain ⟨texts, apart⟩ := operands_told_apart (reachable_after (by decide +kernel)) mem
    (Checked.toOption_eq_some.mp known)
  obtain ⟨text', done⟩ := texts _ (operand 2 (by decide))
  refine ⟨ctx, mem, _, text', text, done, rfl, fun same => ?_⟩
  have one := apart _ _ _ (operand 1 (by decide)) (operand 2 (by decide)) text (same ▸ done)
  exact absurd one (by decide)

end World
end ModuleIR
