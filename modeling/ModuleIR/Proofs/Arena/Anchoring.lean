import ModuleIR.Proofs.Arena.Growth

set_option autoImplicit false

/-!
# Where a value is at home

`Context.Anchored` says declaratively what `Context.anchor` computes: a global or function is at home
in its module, also behind pointer arithmetic; an argument or a placed instruction in its function;
an instruction of a detached block nowhere yet; all other constants are free. A value has at most one
home, and growth never moves a value that has a module or a function for its home.
-/
namespace ModuleIR

namespace Context

/-- The home of a value, found through the bases of pointer arithmetic. -/
inductive Anchored (ctx : Context) : ValueRef → Anchor → Prop
  | int {v : ValueRef} {r : ValueRecord} {n : WideInt} (read : ctx.value v = .ok r)
      (kind : r.kind = .int n) : Anchored ctx v .free
  | bytes {v : ValueRef} {r : ValueRecord} {bytes : List UInt8} (read : ctx.value v = .ok r)
      (kind : r.kind = .bytes bytes) : Anchored ctx v .free
  | elementPtr {v : ValueRef} {r : ValueRecord} {e : ElementPtrRecord} {anchor : Anchor}
      (read : ctx.value v = .ok r) (kind : r.kind = .elementPtr e)
      (base : Anchored ctx e.base anchor) : Anchored ctx v anchor
  | global {v : ValueRef} {r : ValueRecord} {g : GlobalRecord} (read : ctx.value v = .ok r)
      (kind : r.kind = .global g) : Anchored ctx v (.module g.module)
  | function {v : ValueRef} {r : ValueRecord} {f : FunctionRecord} (read : ctx.value v = .ok r)
      (kind : r.kind = .function f) : Anchored ctx v (.module f.module)
  | argument {v : ValueRef} {r : ValueRecord} {a : ArgumentRecord} (read : ctx.value v = .ok r)
      (kind : r.kind = .argument a) : Anchored ctx v (.function a.parent)
  | placed {v : ValueRef} {r : ValueRecord} {i : InstructionRecord} {b : BlockRecord}
      {f : FunctionRef} (read : ctx.value v = .ok r) (kind : r.kind = .instruction i)
      (block : ctx.block i.parent = .ok b) (parent : b.parent = some f) :
      Anchored ctx v (.function f)
  | detached {v : ValueRef} {r : ValueRecord} {i : InstructionRecord} {b : BlockRecord}
      (read : ctx.value v = .ok r) (kind : r.kind = .instruction i)
      (block : ctx.block i.parent = .ok b) (parent : b.parent = none) :
      Anchored ctx v .detached

def KindAnchored (ctx : Context) (anchor : Anchor) : ValueKind → Prop
  | .int _ | .bytes _ => anchor = .free
  | .elementPtr e => ctx.Anchored e.base anchor
  | .global g => anchor = .module g.module
  | .function f => anchor = .module f.module
  | .argument a => anchor = .function a.parent
  | .instruction i => ∃ b, ctx.block i.parent = .ok b ∧
    anchor = match b.parent with
      | some f => .function f
      | none => .detached
  | .erased => False

variable {ctx ctx' : Context} {v : ValueRef} {anchor anchor' : Anchor}

theorem Anchored.live (h : ctx.Anchored v anchor) : ∃ r, ctx.value v = .ok r := by
  cases h <;> exact ⟨_, ‹_›⟩

theorem anchored_iff {r : ValueRecord} (read : ctx.value v = .ok r) :
    ctx.Anchored v anchor ↔ ctx.KindAnchored anchor r.kind := by
  constructor
  · intro h
    cases h with
    | placed read' kind block parent =>
      obtain rfl : _ = r := by simpa [read'] using read
      rw [kind]
      exact ⟨_, block, by simp [parent]⟩
    | detached read' kind block parent =>
      obtain rfl : _ = r := by simpa [read'] using read
      rw [kind]
      exact ⟨_, block, by simp [parent]⟩
    | elementPtr read' kind base =>
      obtain rfl : _ = r := by simpa [read'] using read
      rw [kind]
      exact base
    | int read' kind | bytes read' kind | global read' kind | function read' kind
    | argument read' kind =>
      obtain rfl : _ = r := by simpa [read'] using read
      rw [kind]
      exact rfl
  · intro h
    cases kind : r.kind with
    | int n => rw [kind] at h; obtain rfl := h; exact .int read kind
    | bytes bytes => rw [kind] at h; obtain rfl := h; exact .bytes read kind
    | elementPtr e => rw [kind] at h; exact .elementPtr read kind h
    | global g => rw [kind] at h; obtain rfl := h; exact .global read kind
    | function f => rw [kind] at h; obtain rfl := h; exact .function read kind
    | argument a => rw [kind] at h; obtain rfl := h; exact .argument read kind
    | instruction i =>
      rw [kind] at h
      obtain ⟨b, block, rfl⟩ := h
      cases parent : b.parent with
      | some f => exact .placed read kind block parent
      | none => exact .detached read kind block parent
    | erased => rw [kind] at h; exact h.elim

theorem Anchored.unique (h : ctx.Anchored v anchor) (h' : ctx.Anchored v anchor') :
    anchor' = anchor := by
  induction h with
  | elementPtr read kind base ih =>
    have step := (anchored_iff read).mp h'
    rw [kind] at step
    exact ih step
  | placed read kind block parent | detached read kind block parent =>
    have step := (anchored_iff read).mp h'
    rw [kind] at step
    obtain ⟨b, block', rfl⟩ := step
    obtain rfl : _ = b := by simpa [block] using block'
    simp [parent]
  | int read kind | bytes read kind | global read kind | function read kind
  | argument read kind =>
    have step := (anchored_iff read).mp h'
    rw [kind] at step
    exact step

/-- Growth moves no value but one that is in a detached block. -/
theorem Anchored.grow (g : ctx.Grows ctx') (h : ctx.Anchored v anchor)
    (home : anchor ≠ .detached) : ctx'.Anchored v anchor := by
  induction h with
  | int read kind =>
    obtain ⟨r', read', _, kind'⟩ := g.fixedValue read kind rfl
    exact .int read' kind'
  | bytes read kind =>
    obtain ⟨r', read', _, kind'⟩ := g.fixedValue read kind rfl
    exact .bytes read' kind'
  | elementPtr read kind base ih =>
    obtain ⟨r', read', _, kind'⟩ := g.fixedValue read kind rfl
    exact .elementPtr read' kind' (ih home)
  | global read kind =>
    obtain ⟨r', read', _, step⟩ := g.value read
    obtain ⟨g', hk, module, _⟩ := (kind ▸ step).of_global
    rw [← module]
    exact .global read' hk
  | function read kind =>
    obtain ⟨r', read', _, step⟩ := g.value read
    obtain ⟨f', hk, module, _⟩ := (kind ▸ step).of_function
    rw [← module]
    exact .function read' hk
  | argument read kind =>
    obtain ⟨r', read', _, kind'⟩ := g.fixedValue read kind rfl
    exact .argument read' kind'
  | placed read kind block parent =>
    obtain ⟨r', read', _, step⟩ := g.value read
    obtain ⟨i', hk, same, _⟩ := (kind ▸ step).of_instruction
    obtain ⟨b', block', grown⟩ := g.block block
    exact .placed read' hk (same ▸ block') (grown.parent _ parent)
  | detached => exact absurd rfl home

/-! ### The computed home -/

theorem anchored_of_anchorWithin {depth : Nat} (h : ctx.anchorWithin depth v = .ok anchor) :
    ctx.Anchored v anchor := by
  induction depth generalizing v with
  | zero => simp [anchorWithin] at h
  | succ depth ih =>
    simp only [anchorWithin, Checked.bind_eq_ok] at h
    obtain ⟨r, read, h⟩ := h
    rw [anchored_iff read]
    cases kind : r.kind with
    | elementPtr e => simp only [kind] at h; exact ih h
    | instruction i =>
      simp only [kind, Checked.bind_eq_ok] at h
      obtain ⟨b, block, h⟩ := h
      refine ⟨b, block, ?_⟩
      cases parent : b.parent <;> simp_all
    | erased => exact absurd kind (value_eq_ok.mp read).2.2
    | _ => simp only [kind, Checked.pure_eq, Except.ok.injEq] at h; exact h.symm

theorem anchored_of_anchor (h : ctx.anchor v = .ok anchor) : ctx.Anchored v anchor :=
  anchored_of_anchorWithin h

def BasesBefore (ctx : Context) : Prop :=
  ∀ v r e, ctx.value v = .ok r → r.kind = .elementPtr e → e.base.index < v.index

theorem Anchored.anchorWithin (before : ctx.BasesBefore) (h : ctx.Anchored v anchor) {depth : Nat}
    (deep : v.index < depth) : ctx.anchorWithin depth v = .ok anchor := by
  induction h generalizing depth with
  | @elementPtr v r e anchor read kind base ih =>
    obtain ⟨depth, rfl⟩ : ∃ d, depth = d + 1 := ⟨depth - 1, by omega⟩
    have lower := before v r e read kind
    simp [Context.anchorWithin, read, kind, ih (by omega : e.base.index < depth)]
  | @placed v r i b f read kind block parent =>
    obtain ⟨depth, rfl⟩ : ∃ d, depth = d + 1 := ⟨depth - 1, by omega⟩
    simp [Context.anchorWithin, read, kind, block, parent]
  | @detached v r i b read kind block parent =>
    obtain ⟨depth, rfl⟩ : ∃ d, depth = d + 1 := ⟨depth - 1, by omega⟩
    simp [Context.anchorWithin, read, kind, block, parent]
  | int read kind | bytes read kind | global read kind | function read kind
  | argument read kind =>
    obtain ⟨depth, rfl⟩ : ∃ d, depth = d + 1 := ⟨depth - 1, by omega⟩
    simp [Context.anchorWithin, read, kind]

theorem anchor_eq_ok (before : ctx.BasesBefore) :
    ctx.anchor v = .ok anchor ↔ ctx.Anchored v anchor :=
  ⟨anchored_of_anchor, fun h => h.anchorWithin before (Nat.lt_succ_self _)⟩

end Context

/-! ### Scope -/

/-- Whether a value at home in `anchor` may be used in `module`, inside `function` when given. -/
def Anchor.Within (anchor : Anchor) (module : ModuleRef) (function : Option FunctionRef)
    (strict : Bool) : Prop :=
  match anchor with
  | .free => True
  | .module owner => owner = module
  | .function owner => function = some owner
  | .detached => strict = false

namespace Context

variable {ctx ctx' : Context} {v : ValueRef} {m : ModuleRef} {f : Option FunctionRef}
  {strict : Bool}

/-- The scope check finds no fault exactly with the operands whose home is within scope. -/
theorem scopeFault_eq_none :
    ctx.scopeFault v m f strict = .ok none ↔
      ∃ anchor, ctx.anchor v = .ok anchor ∧ anchor.Within m f strict := by
  unfold scopeFault
  rw [Checked.bind_eq_ok]
  refine exists_congr fun anchor => and_congr_right fun _ => ?_
  cases anchor with
  | free => simp [Anchor.Within]
  | module owner =>
    by_cases same : owner = m
    · simp [Anchor.Within, same]
    · simp [Anchor.Within, same, Checked.bind_eq_ok]
  | function owner =>
    cases f with
    | none => simp [Anchor.Within, Checked.bind_eq_ok]
    | some user =>
      by_cases same : owner = user
      · simp [Anchor.Within, same]
      · simp [Anchor.Within, same, Ne.symm same, Checked.bind_eq_ok]
  | detached => cases strict <;> simp [Anchor.Within, Checked.bind_eq_ok]

theorem firstScopeFault_eq_none {operands : List ValueRef} :
    ctx.firstScopeFault m f strict operands = .ok none ↔
      ∀ v ∈ operands, ctx.scopeFault v m f strict = .ok none := by
  induction operands with
  | nil => simp [firstScopeFault]
  | cons v rest ih =>
    simp only [firstScopeFault, Checked.bind_eq_ok, List.mem_cons, forall_eq_or_imp, ← ih]
    constructor
    · rintro ⟨fault, first, others⟩
      cases fault with
      | none => exact ⟨first, others⟩
      | some fault => simp at others
    · rintro ⟨first, others⟩
      exact ⟨none, first, others⟩

end Context
end ModuleIR
