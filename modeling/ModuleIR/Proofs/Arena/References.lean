import ModuleIR.Proofs.Arena.WellFormed

set_option autoImplicit false

/-!
# References of placed instructions

An instruction is placed when its block is in a function. What the placed instructions of a module
refer to is all that can dangle in it: every other handle that a record holds names something alive.
-/
namespace ModuleIR

namespace Context

/-- What the handle names can be read. -/
def Lives (ctx : Context) : Handle → Prop
  | .type _ t => ctx.HasType t
  | .value _ v => ∃ r, ctx.value v = .ok r
  | .block b => ∃ r, ctx.block b = .ok r
  | .module m => ∃ r, ctx.module m = .ok r

/-- What the handle names can be read, and is what its holder knows it as. -/
def Reads (ctx : Context) : Handle → Prop
  | .type view t => ∃ shape, ctx.shape t = .ok shape ∧ view.accepts shape = true
  | .value view v => ∃ r, ctx.value v = .ok r ∧ view.accepts r.kind = true
  | .block b => ∃ r, ctx.block b = .ok r
  | .module m => ∃ r, ctx.module m = .ok r

/-- An instruction of a block of a function. -/
structure PlacedIn (ctx : Context) (i : InstructionRef) (r : InstructionRecord) (f : FunctionRef) :
    Prop where
  made : ctx.instruction i = .ok r
  placed : ∃ br, ctx.block r.parent = .ok br ∧ br.parent = some f

/-- A handle that an instruction in a function of the module refers to. -/
def References (ctx : Context) (m : ModuleRef) (h : Handle) : Prop :=
  ∃ i r f fr, ctx.PlacedIn i r f ∧ ctx.function f = .ok fr ∧ fr.module = m ∧
    h ∈ r.operation.handles

/-- The module refers to something that cannot be read. -/
def Dangles (ctx : Context) (m : ModuleRef) : Prop := ∃ h, ctx.References m h ∧ ¬ctx.Lives h

variable {ctx : Context} {m : ModuleRef} {h : Handle}

theorem Reads.holds (reads : ctx.Reads h) : ctx.Holds h := by
  cases h with
  | type view t =>
    obtain ⟨shape, read, accepted⟩ := reads
    exact holds_type read accepted
  | value view v =>
    obtain ⟨r, read, accepted⟩ := reads
    exact holds_value read accepted
  | block b =>
    obtain ⟨r, read⟩ := reads
    exact holds_block read
  | module m =>
    obtain ⟨r, read⟩ := reads
    exact holds_module read

theorem Reads.lives (reads : ctx.Reads h) : ctx.Lives h := by
  cases h with
  | type view t =>
    obtain ⟨shape, read, _⟩ := reads
    exact ⟨shape, read⟩
  | value view v =>
    obtain ⟨r, read, _⟩ := reads
    exact ⟨r, read⟩
  | block b => exact reads
  | module m => exact reads

theorem reads_global {g : GlobalRef} {r : GlobalRecord} (known : ctx.global g = .ok r) :
    ctx.Reads (.value .global g.value) := by
  obtain ⟨value, read, kind⟩ := global_eq_ok.mp known
  exact ⟨value, read, kind ▸ rfl⟩

theorem reads_function {f : FunctionRef} {r : FunctionRecord} (known : ctx.function f = .ok r) :
    ctx.Reads (.value .function f.value) := by
  obtain ⟨value, read, kind⟩ := function_eq_ok.mp known
  exact ⟨value, read, kind ▸ rfl⟩

theorem not_dangles : ¬ctx.Dangles m ↔ ∀ h, ctx.References m h → ctx.Lives h := by
  constructor
  · exact fun sound h referred => Classical.byContradiction fun dead => sound ⟨h, referred, dead⟩
  · exact fun sound ⟨h, referred, dead⟩ => dead (sound h referred)

theorem WellFormed.placedIn_iff (wf : ctx.WellFormed) {f : FunctionRef} {fr : FunctionRecord}
    (known : ctx.function f = .ok fr) {i : InstructionRef} {r : InstructionRecord} :
    ctx.PlacedIn i r f ↔ ctx.instruction i = .ok r ∧
      ∃ b ∈ fr.blocks, ∃ br, ctx.block b = .ok br ∧ i ∈ br.instructions := by
  constructor
  · rintro ⟨made, br, read, parent⟩
    obtain ⟨br', read', listed⟩ := wf.instruction_listed made
    obtain rfl := Checked.unique read read'
    obtain ⟨fr', known', mem⟩ := wf.block_listed read parent
    obtain rfl := Checked.unique known known'
    exact ⟨made, r.parent, mem, br, read, listed⟩
  · rintro ⟨made, b, mem, br, read, listed⟩
    obtain ⟨br', read', parent⟩ := wf.function_block known mem
    obtain rfl := Checked.unique read read'
    obtain ⟨r', made', home⟩ := wf.block_instruction read listed
    obtain rfl := Checked.unique made made'
    exact ⟨made, br, home ▸ read, parent⟩

theorem WellFormed.anchored (wf : ctx.WellFormed) {v : ValueRef} {r : ValueRecord}
    (read : ctx.value v = .ok r) : ∃ anchor, ctx.Anchored v anchor := by
  generalize bound : v.index = n
  induction n using Nat.strongRecOn generalizing v r with
  | ind n ih =>
    cases kind : r.kind with
    | int | bytes => exact ⟨.free, (anchored_iff read).mpr (by rw [kind]; rfl)⟩
    | elementPtr e =>
      have sound := wf.elementPtrSound read kind
      obtain ⟨base, held, _⟩ := sound.base
      obtain ⟨anchor, home⟩ := ih _ (bound ▸ sound.baseBefore) held rfl
      exact ⟨anchor, .elementPtr read kind home⟩
    | global g => exact ⟨_, .global read kind⟩
    | function f => exact ⟨_, .function read kind⟩
    | argument a => exact ⟨_, .argument read kind⟩
    | instruction i =>
      obtain ⟨br, held, _⟩ := wf.instruction_listed (instruction_eq_ok.mpr ⟨r, read, kind⟩ :
        ctx.instruction ⟨v⟩ = .ok i)
      cases parent : br.parent with
      | some f => exact ⟨_, .placed read kind held parent⟩
      | none => exact ⟨_, .detached read kind held parent⟩
    | erased => exact absurd kind (value_eq_ok.mp read).2.2

theorem WellFormed.module_of_anchored (wf : ctx.WellFormed) {v : ValueRef} {n : ModuleRef}
    (home : ctx.Anchored v (.module n)) : ∃ mr, ctx.module n = .ok mr := by
  generalize same : Anchor.module n = anchor at home
  induction home with
  | elementPtr read kind base ih => exact ih same
  | @global v r g read kind =>
    obtain rfl := Anchor.module.inj same
    obtain ⟨mr, held, _⟩ :=
      wf.global_listed (global_eq_ok.mpr ⟨r, read, kind⟩ : ctx.global ⟨v⟩ = .ok g)
    exact ⟨mr, held⟩
  | @function v r f read kind =>
    obtain rfl := Anchor.module.inj same
    obtain ⟨mr, held, _⟩ :=
      wf.function_listed (function_eq_ok.mpr ⟨r, read, kind⟩ : ctx.function ⟨v⟩ = .ok f)
    exact ⟨mr, held⟩
  | int | bytes | argument | placed | detached => cases same

theorem WellFormed.function_of_anchored (wf : ctx.WellFormed) {v : ValueRef} {f : FunctionRef}
    (home : ctx.Anchored v (.function f)) : ∃ fr, ctx.function f = .ok fr := by
  generalize same : Anchor.function f = anchor at home
  induction home with
  | elementPtr read kind base ih => exact ih same
  | argument read kind =>
    obtain rfl := Anchor.function.inj same
    have sound := (wf.valueSound read).kind
    rw [kind] at sound
    obtain ⟨fr, known, _⟩ := sound
    exact ⟨fr, known⟩
  | placed read kind block parent =>
    obtain rfl := Anchor.function.inj same
    obtain ⟨fr, known, _⟩ := wf.block_listed block parent
    exact ⟨fr, known⟩
  | int | bytes | global | function | detached => cases same

end Context
end ModuleIR
