import ModuleIR.Proofs.Listing.Faults
import ModuleIR.Proofs.Verify.Acceptance
import ModuleIR.Proofs.World.Typing

set_option autoImplicit false

/-!
# When the references of a listing are resolved

A reference is resolved by a name or by a number, and numbers are given to all that has no name but
for void instructions. What the verifier accepts as an operand is at home in the function, in its
module or nowhere, so that it has a number there when it needs one. The one operand that may be void
is that of a return: it is the only place of an accepted module where a reference can be unresolved.
-/
namespace ModuleIR

namespace Listing

/-- Every reference of the listing has a name or a number. -/
def Resolved (l : Listing) : Prop := Piece.unresolved ∉ l

variable {l l' : Listing}

@[simp] theorem resolved_nil : Resolved [] := by simp [Resolved]

@[simp] theorem resolved_text {text : String} : Resolved (.text text :: l) ↔ l.Resolved := by
  simp [Resolved]

@[simp] theorem resolved_fault {violation : Violation} :
    Resolved (.fault violation :: l) ↔ l.Resolved := by
  simp [Resolved]

@[simp] theorem resolved_append : Resolved (l ++ l') ↔ l.Resolved ∧ l'.Resolved := by
  simp only [Resolved, List.mem_append, not_or]

@[simp] theorem resolved_referent {name : Option String} {slot : Option Nat} :
    Resolved (referent name slot :: l) ↔ (name = none → slot ≠ none) ∧ l.Resolved := by
  cases name <;> cases slot <;> simp [referent, Resolved]

theorem resolved_flatMap {α : Type} {next : α → Listing} {as : List α} :
    Resolved (as.flatMap next) ↔ ∀ a ∈ as, (next a).Resolved := by
  induction as with
  | nil => simp
  | cons a rest ih => simp [ih]

theorem resolved_separated {separator : String} {ls : List Listing} :
    Resolved (separated separator ls) ↔ ∀ l ∈ ls, l.Resolved := by
  induction ls with
  | nil => simp [separated]
  | cons first rest ih =>
    cases rest with
    | nil => simp [separated]
    | cons second rest => simp [separated, ih]

theorem resolved_reading {α : Type} {read : Checked α} {next : α → Listing} :
    Resolved (reading read next) ↔ ∀ a, read = .ok a → (next a).Resolved := by
  cases read <;> simp [reading]

theorem idxOf?_ne_none {α : Type} [DecidableEq α] {as : List α} {a : α} :
    as.idxOf? a ≠ none ↔ a ∈ as := by
  rw [ne_eq, List.idxOf?_eq_none_iff, not_not]

end Listing

namespace Context

/-- An instruction that nothing stands for in a listing: it is void and has no name. -/
def Mute (ctx : Context) (u : ValueRef) : Prop :=
  ∃ r i, ctx.value u = .ok r ∧ r.name = none ∧ r.kind = .instruction i ∧
    ctx.shape r.type = .ok .void

/-- A placed instruction of the module returns a void instruction as if it were a value. -/
def ReturnsMute (ctx : Context) (m : ModuleRef) : Prop :=
  ∃ i r f fr u, ctx.PlacedIn i r f ∧ ctx.function f = .ok fr ∧ fr.module = m ∧
    r.operation = .ret (some u) ∧ ctx.Mute u

variable {ctx : Context} {m : ModuleRef} {f : FunctionRef} {fr : FunctionRecord}

/-! ### Who has a number -/

theorem mem_unnamedValues {vs slots : List ValueRef} (numbered : ctx.unnamedValues vs = .ok slots)
    {v : ValueRef} : v ∈ slots ↔ v ∈ vs ∧ ctx.valueName v = .ok none := by
  induction vs generalizing slots with
  | nil =>
    obtain rfl : [] = slots := by simpa [unnamedValues] using numbered
    simp
  | cons u rest ih =>
    simp only [unnamedValues, Checked.bind_eq_ok] at numbered
    obtain ⟨name, named, others, listed, same⟩ := numbered
    cases name with
    | none =>
      obtain rfl : u :: others = slots := by simpa using same
      rw [List.mem_cons, List.mem_cons, ih listed]
      constructor
      · rintro (rfl | ⟨mem, unnamed⟩)
        · exact ⟨.inl rfl, named⟩
        · exact ⟨.inr mem, unnamed⟩
      · rintro ⟨rfl | mem, unnamed⟩
        · exact .inl rfl
        · exact .inr ⟨mem, unnamed⟩
    | some name =>
      obtain rfl : others = slots := by simpa using same
      rw [List.mem_cons, ih listed]
      refine and_congr_left fun unnamed => ⟨.inr, fun mem => mem.resolve_left ?_⟩
      rintro rfl
      rw [named] at unnamed
      cases unnamed

theorem mem_globalSlots {mr : ModuleRecord} (live : ctx.module m = .ok mr) {slots : List ValueRef}
    (numbered : ctx.globalSlots m = .ok slots) {v : ValueRef} :
    v ∈ slots ↔ ((∃ g ∈ mr.globals, g.value = v) ∨ ∃ f ∈ mr.functions, f.value = v) ∧
      ctx.valueName v = .ok none := by
  simp only [globalSlots, Checked.bind_eq_ok] at numbered
  obtain ⟨mr', live', numbered⟩ := numbered
  obtain rfl := Checked.unique live live'
  rw [mem_unnamedValues numbered, List.mem_append, List.mem_map, List.mem_map]

theorem WellFormed.constant_home (wf : ctx.WellFormed) {v : ValueRef} {r : ValueRecord}
    {anchor : Anchor} (home : ctx.Anchored v anchor) (read : ctx.value v = .ok r)
    (constant : r.kind.isConstant = true) : anchor = .free ∨ ∃ m, anchor = .module m := by
  induction home generalizing r with
  | int | bytes => exact .inl rfl
  | elementPtr read' kind base ih =>
    obtain ⟨record, held, constant'⟩ := (wf.elementPtrSound read' kind).base
    exact ih held constant'
  | global | function => exact .inr ⟨_, rfl⟩
  | argument read' kind | placed read' kind | detached read' kind =>
    obtain rfl := Checked.unique read read'
    rw [kind] at constant
    cases constant

def Numbered (ctx : Context) (i : InstructionRef) : Prop :=
  ∃ r, ctx.value i.value = .ok r ∧ r.name = none ∧ ctx.shape r.type ≠ .ok .void

theorem mem_instructionSlots {is : List InstructionRef} {slots : List Symbol}
    (numbered : ctx.instructionSlots is = .ok slots) {s : Symbol} :
    s ∈ slots ↔ ∃ i ∈ is, s = .value i.value ∧ ctx.Numbered i := by
  induction is generalizing slots with
  | nil =>
    obtain rfl : [] = slots := by simpa [instructionSlots] using numbered
    simp
  | cons i rest ih =>
    simp only [instructionSlots, Checked.bind_eq_ok] at numbered
    obtain ⟨r, read, shape, shaped, others, listed, same⟩ := numbered
    have first : ctx.Numbered i ↔ (r.name.isNone && !shape.isVoid) = true := by
      constructor
      · rintro ⟨r', read', unnamed, solid⟩
        obtain rfl := Checked.unique read read'
        rw [shaped] at solid
        cases shape <;> simp_all [Shape.isVoid]
      · intro counted
        obtain ⟨unnamed, solid⟩ := Bool.and_eq_true_iff.mp counted
        refine ⟨r, read, by simpa using unnamed, ?_⟩
        rw [shaped]
        rintro void
        obtain rfl := Except.ok.inj void
        cases solid
    simp only [List.mem_cons, exists_eq_or_imp, ← ih listed]
    cases counted : r.name.isNone && !shape.isVoid with
    | true =>
      obtain rfl : .value i.value :: others = slots := by simpa [counted] using same
      rw [List.mem_cons, and_iff_left (first.mpr counted)]
    | false =>
      obtain rfl : others = slots := by simpa [counted] using same
      refine (or_iff_right ?_).symm
      rintro ⟨_, numbered⟩
      rw [first.mp numbered] at counted
      cases counted

theorem mem_blockSlots {bs : List BlockRef} {slots : List Symbol}
    (numbered : ctx.blockSlots bs = .ok slots) {s : Symbol} :
    s ∈ slots ↔ ∃ b ∈ bs, ∃ br, ctx.block b = .ok br ∧ ((s = .block b ∧ br.name = none) ∨
      ∃ i ∈ br.instructions, s = .value i.value ∧ ctx.Numbered i) := by
  induction bs generalizing slots with
  | nil =>
    obtain rfl : [] = slots := by simpa [blockSlots] using numbered
    simp
  | cons b rest ih =>
    simp only [blockSlots, Checked.bind_eq_ok] at numbered
    obtain ⟨br, read, inside, counted, others, listed, same⟩ := numbered
    obtain rfl : (if br.name.isNone then [.block b] else []) ++ inside ++ others = slots := by
      simpa using same
    have label : s ∈ (if br.name.isNone then [Symbol.block b] else []) ↔
        s = .block b ∧ br.name = none := by
      cases br.name <;> simp
    simp only [List.mem_cons, exists_eq_or_imp]
    rw [List.mem_append, List.mem_append, label, mem_instructionSlots counted, ih listed]
    refine or_congr_left ⟨fun h => ⟨br, read, h⟩, ?_⟩
    rintro ⟨br', read', h⟩
    obtain rfl := Checked.unique read read'
    exact h

theorem mem_localSlots (known : ctx.function f = .ok fr) {slots : List Symbol}
    (numbered : ctx.localSlots f = .ok slots) {s : Symbol} :
    s ∈ slots ↔ (∃ a ∈ fr.args, s = .value a.value ∧ ctx.valueName a.value = .ok none) ∨
      ∃ b ∈ fr.blocks, ∃ br, ctx.block b = .ok br ∧ ((s = .block b ∧ br.name = none) ∨
        ∃ i ∈ br.instructions, s = .value i.value ∧ ctx.Numbered i) := by
  simp only [localSlots, Checked.bind_eq_ok] at numbered
  obtain ⟨fr', known', args, named, blocks, counted, same⟩ := numbered
  obtain rfl := Checked.unique known known'
  obtain rfl : args.map .value ++ blocks = slots := by simpa using same
  rw [List.mem_append, mem_blockSlots counted]
  refine or_congr_left ?_
  simp only [List.mem_map, mem_unnamedValues named]
  constructor
  · rintro ⟨_, ⟨⟨a, listed, rfl⟩, unnamed⟩, rfl⟩
    exact ⟨a, listed, rfl, unnamed⟩
  · rintro ⟨a, listed, rfl, unnamed⟩
    exact ⟨a.value, ⟨⟨a, listed, rfl⟩, unnamed⟩, rfl⟩

end Context

namespace Listing

open Context

variable {ctx : Context} (wf : ctx.WellFormed) {m : ModuleRef} {mr : ModuleRecord}
  (live : ctx.module m = .ok mr) {globals : List ValueRef} (numbered : ctx.globalSlots m = .ok globals)
  {locals : List Symbol}

/-! ### Operands -/

include wf live numbered in
/-- A constant that is free or at home in the module is resolved wherever it stands in it. -/
theorem resolved_constant {depth : Nat} {v : ValueRef} {r : ValueRecord}
    (read : ctx.value v = .ok r) (constant : r.kind.isConstant = true)
    (home : ctx.Anchored v .free ∨ ctx.Anchored v (.module m)) :
    (refWithin ctx ⟨globals, locals⟩ depth v).Resolved := by
  induction depth generalizing v r with
  | zero => simp [refWithin]
  | succ depth ih =>
    rw [refWithin, resolved_reading]
    intro r' read'
    obtain rfl := Checked.unique read read'
    have number (listed : (∃ g ∈ mr.globals, g.value = v) ∨ ∃ f ∈ mr.functions, f.value = v)
        (unnamed : r.name = none) : globals.idxOf? v ≠ none :=
      idxOf?_ne_none.mpr ((mem_globalSlots live numbered).mpr
        ⟨listed, valueName_eq_ok.mpr ⟨r, read, unnamed⟩⟩)
    simp only [anchored_iff read] at home
    cases kind : r.kind with
    | elementPtr e =>
      rw [kind] at home
      have sound := wf.elementPtrSound read kind
      obtain ⟨base, held, constant'⟩ := sound.base
      simp only [List.cons_append, resolved_text, resolved_append, resolved_flatMap,
        resolved_reading, resolved_nil, and_true]
      refine fun _ _ => ⟨fun _ _ => ih held constant' home, fun u mem _ _ => ?_⟩
      obtain ⟨index, n, held', kind'⟩ := sound.indices u mem
      exact ih held' (by rw [kind']; rfl) (.inl (.int held' kind'))
    | global g =>
      rw [kind] at home
      have inside : g.module = m :=
        home.elim (fun impossible => by cases impossible) fun same => (Anchor.module.inj same).symm
      have known : ctx.global ⟨v⟩ = .ok g := global_eq_ok.mpr ⟨r, read, kind⟩
      obtain ⟨mr', live', listed⟩ := wf.global_listed known
      obtain rfl : mr' = mr := Checked.unique live' (inside ▸ live)
      simpa using number (.inl ⟨_, listed, rfl⟩)
    | function fr =>
      rw [kind] at home
      have inside : fr.module = m :=
        home.elim (fun impossible => by cases impossible) fun same => (Anchor.module.inj same).symm
      have known : ctx.function ⟨v⟩ = .ok fr := function_eq_ok.mpr ⟨r, read, kind⟩
      obtain ⟨mr', live', listed⟩ := wf.function_listed known
      obtain rfl : mr' = mr := Checked.unique live' (inside ▸ live)
      simpa using number (.inr ⟨_, listed, rfl⟩)
    | argument | instruction | erased => simp [kind, ValueKind.isConstant] at constant
    | int | bytes => simp

variable {f : FunctionRef} {fr : FunctionRecord} (known : ctx.function f = .ok fr)
  (inside : fr.module = m) (counted : ctx.localSlots f = .ok locals)

include wf known counted in
theorem resolved_argument {v : ValueRef} {r : ValueRecord} {a : ArgumentRecord}
    (read : ctx.value v = .ok r) (kind : r.kind = .argument a) (home : a.parent = f) :
    (ref ctx ⟨globals, locals⟩ v).Resolved := by
  rw [ref, refWithin, resolved_reading]
  intro r' read'
  obtain rfl := Checked.unique read read'
  have sound := (wf.valueSound read).kind
  rw [kind] at sound
  obtain ⟨fr', known', listed⟩ := sound
  obtain rfl : fr' = fr := Checked.unique known' (home ▸ known)
  rw [value_self read] at listed
  simp only [kind, resolved_text, resolved_referent, resolved_nil, and_true]
  intro unnamed
  exact idxOf?_ne_none.mpr ((mem_localSlots known counted).mpr
    (.inl ⟨_, listed, rfl, valueName_eq_ok.mpr ⟨r, read, unnamed⟩⟩))

include wf known counted in
theorem resolved_placed {v : ValueRef} {r : ValueRecord} {i : InstructionRecord}
    (read : ctx.value v = .ok r) (kind : r.kind = .instruction i) {br : BlockRecord}
    (held : ctx.block i.parent = .ok br) (home : br.parent = some f) :
    (ref ctx ⟨globals, locals⟩ v).Resolved ↔ ¬ctx.Mute v := by
  have made : ctx.instruction ⟨v⟩ = .ok i := instruction_eq_ok.mpr ⟨r, read, kind⟩
  have listed : .value v ∈ locals ↔ ctx.Numbered ⟨v⟩ := by
    rw [mem_localSlots known counted]
    constructor
    · rintro (⟨a, listed, same, _⟩ | ⟨b, _, br', _, ⟨same, _⟩ | ⟨j, _, same, valued⟩⟩)
      · obtain ⟨ar, argued, _⟩ := wf.function_argument known listed
        obtain ⟨r', read', kind'⟩ := argument_eq_ok.mp argued
        obtain rfl := Symbol.value.inj same
        obtain rfl := Checked.unique read read'
        rw [kind] at kind'
        cases kind'
      · cases same
      · obtain rfl := Symbol.value.inj same
        exact valued
    · intro valued
      obtain ⟨br', held', listed⟩ := wf.instruction_listed made
      obtain rfl := Checked.unique held held'
      obtain ⟨fr', known', mem⟩ := wf.block_listed held home
      obtain rfl := Checked.unique known known'
      exact .inr ⟨i.parent, mem, br, held, .inr ⟨_, listed, rfl, valued⟩⟩
  have content : (ref ctx ⟨globals, locals⟩ v).Resolved ↔
      (r.name = none → locals.idxOf? (.value v) ≠ none) := by
    simp [ref, refWithin, reading, read, kind]
  rw [content, idxOf?_ne_none, listed]
  constructor
  · rintro valued ⟨r', _, read', unnamed, _, void⟩
    obtain rfl := Checked.unique read read'
    obtain ⟨r', read', _, solid⟩ := valued unnamed
    obtain rfl := Checked.unique read read'
    exact solid void
  · exact fun sounds unnamed => ⟨r, read, unnamed, fun void => sounds ⟨r, i, read, unnamed, kind, void⟩⟩

include wf live numbered known inside counted in
/-- What may be used in a function is resolved there, unless it is a void instruction. -/
theorem resolved_ref {v : ValueRef} {anchor : Anchor} (home : ctx.Anchored v anchor)
    (within : anchor.Within fr.module (some f) true) :
    (ref ctx ⟨globals, locals⟩ v).Resolved ↔ ¬ctx.Mute v := by
  obtain ⟨r, read⟩ := home.live
  have silent (other : ∀ i, r.kind ≠ .instruction i) : ¬ctx.Mute v := by
    rintro ⟨r', i, read', _, kind, _⟩
    obtain rfl := Checked.unique read read'
    exact other i kind
  cases constant : r.kind.isConstant with
  | true =>
    refine iff_of_true ?_ (silent fun i kind => by simp [kind, ValueKind.isConstant] at constant)
    refine resolved_constant wf live numbered read constant ?_
    rcases wf.constant_home home read constant with rfl | ⟨owner, rfl⟩
    · exact .inl home
    · exact .inr (inside ▸ within ▸ home)
  | false =>
    have content := (anchored_iff read).mp home
    cases kind : r.kind with
    | argument a =>
      rw [kind] at content
      obtain rfl : anchor = .function a.parent := content
      exact iff_of_true
        (resolved_argument wf known counted read kind (Option.some.inj within).symm)
        (silent (by simp [kind]))
    | instruction i =>
      rw [kind] at content
      obtain ⟨br, held, rfl⟩ := content
      cases parent : br.parent with
      | none =>
        rw [parent] at within
        cases within
      | some g =>
        rw [parent] at within
        obtain rfl : f = g := Option.some.inj within
        exact resolved_placed wf known counted read kind held parent
    | erased => exact absurd kind (value_eq_ok.mp read).2.2
    | _ => simp [kind, ValueKind.isConstant] at constant

include known counted wf in
theorem resolved_blockRef {b : BlockRef} {br : BlockRecord} (held : ctx.block b = .ok br)
    (home : br.parent = some f) : (blockRef ctx ⟨globals, locals⟩ b).Resolved := by
  simp only [blockRef, reading, held, resolved_text, resolved_referent, resolved_nil, and_true]
  intro unnamed
  obtain ⟨fr', known', mem⟩ := wf.block_listed held home
  obtain rfl := Checked.unique known known'
  exact idxOf?_ne_none.mpr ((mem_localSlots known counted).mpr
    (.inr ⟨b, mem, br, held, .inl ⟨rfl, unnamed⟩⟩))

/-! ### Instructions and functions -/

include wf live numbered known inside counted in
theorem resolved_operand {v : ValueRef} {anchor : Anchor} (home : ctx.Anchored v anchor)
    (within : anchor.Within fr.module (some f) true) :
    (operand ctx ⟨globals, locals⟩ v).Resolved ↔ ¬ctx.Mute v := by
  rw [← resolved_ref wf live numbered known inside counted home within, operand, resolved_reading]
  obtain ⟨r, read⟩ := home.live
  constructor
  · exact fun all => resolved_text.mp (all _ (wf.describeTypeOf_eq read))
  · exact fun resolved _ _ => resolved_text.mpr resolved

include wf live numbered known inside counted in
theorem resolved_operation {expected type : TypeRef} {o : Operation}
    (accepted : ctx.OperationAccepted fr.module f expected o)
    (solid : ∀ u ∈ o.operands, o = .ret (some u) ∨ ctx.Carries u) :
    (operation ctx ⟨globals, locals⟩ type o).Resolved ↔ ∀ u, o = .ret (some u) → ¬ctx.Mute u := by
  have silent {u : ValueRef} (carries : ctx.Carries u) : ¬ctx.Mute u := by
    rintro ⟨r, _, read, _, _, void⟩
    exact carries.shape_ne read void
  have target {b : BlockRef} (mem : b ∈ o.successors) : (blockRef ctx ⟨globals, locals⟩ b).Resolved := by
    obtain ⟨br, held, home⟩ := accepted.targets b mem
    exact resolved_blockRef wf known counted held home
  cases o with
  | call callee args convention =>
    have used {u : ValueRef} (mem : u ∈ args ++ [callee]) :
        (ref ctx ⟨globals, locals⟩ u).Resolved ∧ (operand ctx ⟨globals, locals⟩ u).Resolved := by
      obtain ⟨anchor, home, within⟩ := accepted.operands u mem
      have carries := (solid u mem).resolve_left (by simp)
      exact ⟨(resolved_ref wf live numbered known inside counted home within).mpr (silent carries),
        (resolved_operand wf live numbered known inside counted home within).mpr (silent carries)⟩
    refine iff_of_true ?_ (by simp)
    simp only [operation, resolved_text, resolved_reading, List.cons_append, resolved_append,
      resolved_separated, List.forall_mem_map, resolved_nil, and_true]
    exact fun _ _ => ⟨(used (by simp)).1, fun u mem => (used (List.mem_append_left _ mem)).2⟩
  | ret value =>
    cases value with
    | none => simp [operation]
    | some v =>
      obtain ⟨anchor, home, within⟩ := accepted.operands v List.mem_cons_self
      simp only [operation, resolved_text,
        resolved_operand wf live numbered known inside counted home within, Operation.ret.injEq,
        Option.some.injEq, forall_eq']
  | br b =>
    refine iff_of_true ?_ (by simp)
    exact resolved_text.mpr (target List.mem_cons_self)
  | condBr cond ifTrue ifFalse =>
    obtain ⟨anchor, home, within⟩ := accepted.operands cond List.mem_cons_self
    have carries := (solid cond List.mem_cons_self).resolve_left (by simp)
    have tested := (resolved_operand wf live numbered known inside counted home within).mpr
      (silent carries)
    refine iff_of_true ?_ (by simp)
    simp only [operation, List.cons_append, resolved_text, resolved_append, tested, true_and]
    exact ⟨target List.mem_cons_self, target (List.mem_cons_of_mem _ List.mem_cons_self)⟩

variable (typed : ctx.Typed)

include wf live numbered known inside counted typed in
theorem resolved_instruction {expected : TypeRef} {i : InstructionRef} {r : InstructionRecord}
    (placed : ctx.PlacedIn i r f)
    (accepted : ctx.OperationAccepted fr.module f expected r.operation) :
    (instruction ctx ⟨globals, locals⟩ i).Resolved ↔ ∀ u, r.operation = .ret (some u) → ¬ctx.Mute u := by
  obtain ⟨record, read, kind⟩ := instruction_eq_ok.mp placed.made
  obtain ⟨shape, shaped⟩ := (wf.valueSound read).type
  obtain ⟨br, held, home⟩ := placed.placed
  have made : ctx.operation i = .ok r.operation := operation_eq_ok.mpr ⟨r, placed.made, rfl⟩
  have self (solid : shape.isVoid = false) : (ref ctx ⟨globals, locals⟩ i.value).Resolved := by
    refine (resolved_placed wf known counted read kind held home).mpr ?_
    rintro ⟨record', _, read', _, _, void⟩
    obtain rfl := Checked.unique read read'
    obtain rfl := Checked.unique shaped void
    cases solid
  have content : (operation ctx ⟨globals, locals⟩ record.type r.operation).Resolved ↔
      ∀ u, r.operation = .ret (some u) → ¬ctx.Mute u :=
    resolved_operation wf live numbered known inside counted accepted
      (typed.operands i r placed.made)
  rw [← content]
  simp only [instruction, reading, read, shaped, made]
  cases solid : shape.isVoid with
  | true => simp
  | false => simp [self solid]

include wf live numbered known inside counted typed in
theorem resolved_blockLines (accepted : ctx.FunctionAccepted f fr) {first : Bool} {b : BlockRef}
    (mem : b ∈ fr.blocks) : (blockLines ctx ⟨globals, locals⟩ first b).Resolved ↔ ∀ i r, ctx.PlacedIn i r f →
      r.parent = b → ∀ u, r.operation = .ret (some u) → ¬ctx.Mute u := by
  obtain ⟨_, _, _, _, blocks⟩ := accepted.defined (List.ne_nil_of_mem mem)
  obtain ⟨br, held, judged⟩ := blocks b mem
  have blank : Resolved (if first then [] else [.text "\n"]) := by cases first <;> simp
  have label : (labelLine ⟨globals, locals⟩ first b br.name).Resolved := by
    cases br.name <;> cases first <;> simp [labelLine]
  simp only [blockLines, reading, held, resolved_append, blank, label, true_and, instructionLines,
    resolved_flatMap, List.cons_append, resolved_text, resolved_nil, and_true]
  have line {i : InstructionRef} {r : InstructionRecord} (placed : ctx.PlacedIn i r f)
      (listed : i ∈ br.instructions) :
      (instruction ctx ⟨globals, locals⟩ i).Resolved ↔ ∀ u, r.operation = .ret (some u) → ¬ctx.Mute u := by
    obtain ⟨r', made, fits⟩ := judged.instructions i listed
    obtain rfl := Checked.unique placed.made made
    exact resolved_instruction wf live numbered known inside counted typed placed fits
  constructor
  · rintro all i r placed rfl
    obtain ⟨br', held', listed⟩ := wf.instruction_listed placed.made
    obtain rfl := Checked.unique held held'
    exact (line placed listed).mp (all i listed)
  · intro all i listed
    obtain ⟨r, made, home⟩ := wf.block_instruction held listed
    have placed : ctx.PlacedIn i r f :=
      (wf.placedIn_iff known).mpr ⟨made, b, mem, br, held, listed⟩
    exact (line placed listed).mpr (all i r placed home)

omit known inside counted in
include wf live numbered typed in
theorem resolved_functionLines (known : ctx.function f = .ok fr) (inside : fr.module = m)
    (accepted : ctx.FunctionAccepted f fr) : (functionLines ctx globals f).Resolved ↔
      ∀ i r, ctx.PlacedIn i r f → ∀ u, r.operation = .ret (some u) → ¬ctx.Mute u := by
  obtain ⟨locals, counted⟩ := localSlots_reads wf known
  obtain ⟨result, params, variadic, shaped⟩ := (wf.functionSound known).signature
  have signed : ctx.signature fr.signature = .ok (result, params, variadic) :=
    signature_eq_ok.mpr shaped
  obtain ⟨value, held, kind⟩ := function_eq_ok.mp known
  have name : (ref ctx ⟨globals, locals⟩ f.value).Resolved :=
    resolved_constant wf live numbered held (by rw [kind]; rfl)
      (.inr (inside ▸ .function held kind))
  have header : ∀ l ∈ fr.args.map (parameter ctx ⟨globals, locals⟩ fr.blocks.isEmpty) ++
      (if variadic then [[.text "..."]] else []), Resolved l := by
    intro l mem
    rcases List.mem_append.mp mem with argument | dots
    · obtain ⟨a, listed, rfl⟩ := List.mem_map.mp argument
      obtain ⟨ar, argued, home⟩ := wf.function_argument known listed
      obtain ⟨r, read, kind'⟩ := argument_eq_ok.mp argued
      unfold parameter
      split
      · exact resolved_reading.mpr fun _ _ => by simp
      · refine resolved_reading.mpr fun _ _ => resolved_text.mpr ?_
        exact resolved_argument wf known counted read kind' home
    · cases variadic <;> simp_all
  have lines {first : Bool} {b : BlockRef} (mem : b ∈ fr.blocks) :
      (blockLines ctx ⟨globals, locals⟩ first b).Resolved ↔ ∀ i r, ctx.PlacedIn i r f →
        r.parent = b → ∀ u, r.operation = .ret (some u) → ¬ctx.Mute u :=
    resolved_blockLines wf live numbered known inside counted typed
      accepted mem
  have body : (bodyLines ctx ⟨globals, locals⟩ fr.blocks).Resolved ↔
      ∀ i r, ctx.PlacedIn i r f → ∀ u, r.operation = .ret (some u) → ¬ctx.Mute u := by
    have whole : (bodyLines ctx ⟨globals, locals⟩ fr.blocks).Resolved ↔ ∀ b ∈ fr.blocks,
        ∀ i r, ctx.PlacedIn i r f → r.parent = b → ∀ u, r.operation = .ret (some u) →
          ¬ctx.Mute u := by
      cases blocks : fr.blocks with
      | nil => simp [bodyLines]
      | cons b rest =>
        rw [bodyLines, resolved_append, resolved_flatMap, List.forall_mem_cons,
          lines (blocks ▸ List.mem_cons_self)]
        exact and_congr_right fun _ =>
          forall₂_congr fun c mem => lines (blocks ▸ List.mem_cons_of_mem _ mem)
    rw [whole]
    constructor
    · intro all i r placed
      obtain ⟨_, b, mem, br, held', listed⟩ := (wf.placedIn_iff known).mp placed
      obtain ⟨r', made', home⟩ := wf.block_instruction held' listed
      obtain rfl := Checked.unique placed.made made'
      exact all b mem i r placed home
    · exact fun all b _ i r placed _ => all i r placed
  have written := wf.describeType_eq (wf.hasType_inner shaped List.mem_cons_self)
  simp only [functionLines, reading, counted, known, signed, written, List.cons_append,
    resolved_text, resolved_append, name, true_and, resolved_separated]
  rw [and_iff_right header]
  cases declared : fr.blocks.isEmpty with
  | true =>
    have empty : fr.blocks = [] := List.isEmpty_iff.mp declared
    simp [wf.placedIn_iff known, empty]
  | false => simpa using body

/-! ### Modules -/

include wf live numbered in
theorem resolved_globalLine {g : GlobalRef} (mem : g ∈ mr.globals) :
    (globalLine ctx { globals } g).Resolved := by
  obtain ⟨gr, known, home⟩ := wf.module_global live mem
  obtain ⟨value, read, kind⟩ := global_eq_ok.mp known
  have name : (ref ctx { globals } g.value).Resolved :=
    resolved_constant wf live numbered read (by rw [kind]; rfl) (.inr (home ▸ .global read kind))
  have written := wf.describeType_eq (wf.globalSound known).valueType
  simp only [globalLine, reading, known, written, resolved_append, name, resolved_text, true_and]
  cases given : gr.initializer with
  | none => exact resolved_nil
  | some init =>
    have sound := (wf.globalSound known).initializer init given
    obtain ⟨r, held, constant⟩ := sound.constant
    exact resolved_text.mpr
      (resolved_constant wf live numbered held constant (home ▸ sound.home))

include wf live typed in
/-- The references of an accepted module are resolved unless it returns a void instruction. -/
theorem resolved_module (accepted : ctx.ModuleAccepted m mr) :
    (module ctx m).Resolved ↔ ¬ctx.ReturnsMute m := by
  obtain ⟨globals, numbered⟩ := globalSlots_reads wf live
  have blank : Resolved (if mr.globals.isEmpty then [] else [.text "\n"]) := by split <;> simp
  have lines : ∀ g ∈ mr.globals, (globalLine ctx { globals } g).Resolved := fun g mem =>
    resolved_globalLine wf live numbered mem
  simp only [module, reading, numbered, live, List.cons_append, resolved_text, resolved_append,
    blank, true_and, resolved_flatMap, resolved_nil, and_true]
  rw [and_iff_right lines]
  constructor
  · rintro all ⟨i, r, f, fr, u, placed, known, home, returned, mute⟩
    obtain ⟨mr', live', listed⟩ := wf.function_listed known
    obtain rfl : mr' = mr := Checked.unique live' (home ▸ live)
    obtain ⟨fr', known', judged⟩ := accepted.functions f listed
    obtain rfl := Checked.unique known known'
    exact (resolved_functionLines wf live numbered typed known home judged).mp
      (all f listed) i r placed u returned mute
  · intro none f listed
    obtain ⟨fr, known, home⟩ := wf.module_function live listed
    obtain ⟨fr', known', judged⟩ := accepted.functions f listed
    obtain rfl := Checked.unique known known'
    refine (resolved_functionLines wf live numbered typed known home
      judged).mpr fun i r placed u returned mute => ?_
    exact none ⟨i, r, f, fr, u, placed, known, home, returned, mute⟩

end Listing
end ModuleIR
