import ModuleIR.Proofs.Listing.Faults
import ModuleIR.Proofs.Listing.Operands

set_option autoImplicit false

/-!
# What a chain of bases ends in

Pointer arithmetic is done over a constant base, which may be pointer arithmetic again, down to a
global or a function. However the entities around it are numbered, the reference to the last base is
all that changes in how the chain is printed.
-/
namespace ModuleIR

namespace Context

/-- The chain of bases of a value ends in `root`, a global or function of the module. -/
inductive RestsOn (ctx : Context) (m : ModuleRef) : ValueRef → ValueRef → Prop
  | global {g : GlobalRef} {gr : GlobalRecord} (known : ctx.global g = .ok gr)
      (inside : gr.module = m) : RestsOn ctx m g.value g.value
  | function {f : FunctionRef} {fr : FunctionRecord} (known : ctx.function f = .ok fr)
      (inside : fr.module = m) : RestsOn ctx m f.value f.value
  | elementPtr {v root : ValueRef} {r : ValueRecord} {e : ElementPtrRecord}
      (read : ctx.value v = .ok r) (kind : r.kind = .elementPtr e) (base : RestsOn ctx m e.base root) :
      RestsOn ctx m v root

variable {ctx : Context} {m : ModuleRef} {v root : ValueRef}

theorem RestsOn.live (rests : ctx.RestsOn m v root) : ∃ r, ctx.value root = .ok r := by
  induction rests with
  | global known => exact (global_eq_ok.mp known).imp fun _ => And.left
  | function known => exact (function_eq_ok.mp known).imp fun _ => And.left
  | elementPtr _ _ _ ih => exact ih

theorem RestsOn.numbered (rests : ctx.RestsOn m v root) (wf : ctx.WellFormed)
    {slots : List ValueRef} (numbered : ctx.globalSlots m = .ok slots) {r : ValueRecord}
    (read : ctx.value root = .ok r) (unnamed : r.name = none) :
    ∃ k : Nat, slots.idxOf? root = some k ∧ slots[k]? = some root := by
  have listed : root ∈ slots := by
    induction rests with
    | @global g gr known inside =>
      obtain ⟨mr, live, mem⟩ := wf.global_listed known
      exact (mem_globalSlots (inside ▸ live) numbered).mpr
        ⟨.inl ⟨g, mem, rfl⟩, valueName_eq_ok.mpr ⟨r, read, unnamed⟩⟩
    | @function f fr known inside =>
      obtain ⟨mr, live, mem⟩ := wf.function_listed known
      exact (mem_globalSlots (inside ▸ live) numbered).mpr
        ⟨.inr ⟨f, mem, rfl⟩, valueName_eq_ok.mpr ⟨r, read, unnamed⟩⟩
    | elementPtr _ _ _ ih => exact ih read
  obtain ⟨k, place⟩ := Option.ne_none_iff_exists'.mp (Listing.idxOf?_ne_none.mpr listed)
  obtain ⟨inside, same, _⟩ := List.idxOf?_eq_some_iff.mp place
  exact ⟨k, place, List.getElem?_eq_some_iff.mpr ⟨inside, same⟩⟩

end Context

namespace Listing

open Context

def referentText (name : Option String) (slot : Option Nat) : String :=
  match name, slot with
  | some name, _ => Text.ident name
  | none, some number => toString number
  | none, none => "<badref>"

theorem render_referent (name : Option String) (slot : Option Nat) :
    render [referent name slot] = .ok (referentText name slot) := by
  cases name with
  | some name => rfl
  | none => cases slot <;> rfl

variable {ctx : Context} {m : ModuleRef} {v root : ValueRef} {r : ValueRecord}

theorem render_typed_eq_ok (wf : ctx.WellFormed) {slots : Slots} {depth : Nat} {text : String}
    (read : ctx.value v = .ok r) (rendered : (refWithin ctx slots depth v).render = .ok text) :
    (typed ctx slots depth v).render = .ok (ctx.typeText r.type ++ " " ++ text) :=
  render_reading_eq_ok.mpr ⟨_, wf.describeTypeOf_eq read,
    render_text_eq_ok.mpr ⟨text, rendered, rfl⟩⟩

theorem render_indices (wf : ctx.WellFormed) {is : List ValueRef}
    (ints : ∀ u ∈ is, ∃ r n, ctx.value u = .ok r ∧ r.kind = .int n) : ∃ text, ∀ slots depth,
      render (is.flatMap fun i => .text ", " :: typed ctx slots (depth + 1) i) = .ok text := by
  induction is with
  | nil => exact ⟨"", fun _ _ => rfl⟩
  | cons i rest ih =>
    rw [List.forall_mem_cons] at ints
    obtain ⟨⟨r, n, read, kind⟩, others⟩ := ints
    obtain ⟨text, rendered⟩ := ih others
    refine ⟨", " ++ (ctx.typeText r.type ++ " " ++ integerText n) ++ text, fun slots depth => ?_⟩
    have number : (refWithin ctx slots (depth + 1) i).render = .ok (integerText n) := by
      simp [refWithin, reading, read, kind, render_cons, Piece.content]
    rw [List.flatMap_cons]
    exact render_append_eq_ok.mpr ⟨_, _,
      render_text_eq_ok.mpr ⟨_, render_typed_eq_ok wf read number, rfl⟩, rendered slots depth, rfl⟩

theorem refWithin_elementPtr (wf : ctx.WellFormed) {e : ElementPtrRecord} (read : ctx.value v = .ok r)
    (kind : r.kind = .elementPtr e) (slots : Slots) (depth : Nat) :
    refWithin ctx slots (depth + 1) v = .text ("getelementptr " ++
        (if e.inBounds then "inbounds " else "") ++ "(" ++ ctx.typeText e.sourceType ++ ", ") ::
      typed ctx slots depth e.base ++
        (e.indices.flatMap fun i => .text ", " :: typed ctx slots depth i) ++ [.text ")"] := by
  simp only [refWithin, reading, read, kind, wf.describeType_eq (wf.elementPtrSound read kind).sourceType]
  rfl

theorem render_root (live : ctx.value root = .ok r) (marked : kindClass r.kind = 3) :
    ∃ front back, ∀ slots depth, root.index < depth → (refWithin ctx slots depth root).render =
      .ok (front ++ "@" ++ referentText r.name (slots.globals.idxOf? root) ++ back) := by
  refine ⟨"", "", fun slots depth deep => ?_⟩
  obtain ⟨depth, rfl⟩ := Nat.exists_eq_add_one_of_ne_zero (Nat.ne_zero_of_lt deep)
  have listing : refWithin ctx slots (depth + 1) root =
      [.text "@", referent r.name (slots.globals.idxOf? root)] := by
    cases kind : r.kind with
    | global | function => simp only [refWithin, reading, live, kind]
    | _ => simp [kind, kindClass] at marked
  rw [listing]
  exact render_text_eq_ok.mpr ⟨_, render_referent _ _, by simp⟩

/-- Around the reference to its last base, a chain is printed alike with any numbers. -/
theorem render_chain (wf : ctx.WellFormed) (rests : ctx.RestsOn m v root)
    (live : ctx.value root = .ok r) : ∃ front back, ∀ slots depth, v.index < depth →
      (refWithin ctx slots depth v).render =
        .ok (front ++ "@" ++ referentText r.name (slots.globals.idxOf? root) ++ back) := by
  induction rests with
  | global known =>
    obtain ⟨_, read, kind⟩ := global_eq_ok.mp known
    exact render_root live (by rw [Checked.unique live read, kind]; rfl)
  | function known =>
    obtain ⟨_, read, kind⟩ := function_eq_ok.mp known
    exact render_root live (by rw [Checked.unique live read, kind]; rfl)
  | @elementPtr v root r' e read kind base ih =>
    obtain ⟨front, back, rendered⟩ := ih live
    have sound := wf.elementPtrSound read kind
    obtain ⟨br, held, _⟩ := sound.base
    obtain ⟨indices, listed⟩ := render_indices wf sound.indices
    let opening := "getelementptr " ++ (if e.inBounds then "inbounds " else "") ++ "(" ++
      ctx.typeText e.sourceType ++ ", "
    refine ⟨opening ++ ctx.typeText br.type ++ " " ++ front, back ++ indices ++ ")",
      fun slots depth deep => ?_⟩
    have before := sound.baseBefore
    obtain ⟨depth, rfl⟩ : ∃ d, depth = d + 2 := ⟨depth - 2, by omega⟩
    rw [refWithin_elementPtr wf read kind]
    have inside := render_typed_eq_ok wf held (rendered slots (depth + 1) (by omega))
    refine render_append_eq_ok.mpr ⟨_, _, render_append_eq_ok.mpr ⟨_, _,
      render_text_eq_ok.mpr ⟨_, inside, rfl⟩, listed slots depth, rfl⟩, rfl, ?_⟩
    simp [opening, String.append_assoc]

theorem value_elementPtr {e : ElementPtrRecord} (read : ctx.value v = .ok r)
    (kind : r.kind = .elementPtr e) : value ctx v = operand ctx {} v := by
  simp only [value, reading, read, kind]

theorem render_operand_chain (wf : ctx.WellFormed) (rests : ctx.RestsOn m v root)
    {rr : ValueRecord} (read : ctx.value v = .ok r) (live : ctx.value root = .ok rr) :
    ∃ front back, ∀ slots : Slots, (operand ctx slots v).render =
      .ok (front ++ "@" ++ referentText rr.name (slots.globals.idxOf? root) ++ back) := by
  obtain ⟨front, back, rendered⟩ := render_chain wf rests live
  refine ⟨ctx.typeText r.type ++ " " ++ front, back, fun slots => ?_⟩
  have whole := render_typed_eq_ok wf read (rendered slots (v.index + 1) (Nat.lt_succ_self _))
  exact whole.trans (by simp [String.append_assoc])

/-- The line of a global ends in its initializer, as it is printed as an operand, if the two are of one
type. -/
theorem render_globalLine {slots : Slots} {g : GlobalRef} {gr : GlobalRecord} {init : ConstantRef}
    (wf : ctx.WellFormed) (known : ctx.global g = .ok gr) (given : gr.initializer = some init)
    (typed : ctx.valueType init.value = .ok gr.valueType) {printed : String}
    (rendered : (operand ctx slots init.value).render = .ok printed) :
    ∃ front, (globalLine ctx slots g).render = .ok (front ++ printed) := by
  obtain ⟨gv, held, _⟩ := global_eq_ok.mp known
  obtain ⟨before, after, named⟩ := render_chain wf (.global known rfl) held
  obtain ⟨type, written, behind⟩ := render_reading_eq_ok.mp rendered
  rw [describeTypeOf, typed, Checked.ok_bind] at written
  obtain ⟨reference, referred, rfl⟩ := render_text_eq_ok.mp behind
  have regroup (name head type reference : String) : name ++ (head ++ type ++ (" " ++ reference)) =
      name ++ head ++ (type ++ " " ++ reference) := by simp [String.append_assoc]
  refine ⟨_, (render_append_eq_ok.mpr ⟨_, _, named slots _ (Nat.lt_succ_self _),
    render_reading_eq_ok.mpr ⟨gr, known, render_reading_eq_ok.mpr ⟨type, written,
      render_text_eq_ok.mpr ⟨" " ++ reference, ?_, rfl⟩⟩⟩, rfl⟩).trans
      (congrArg Except.ok (regroup _ _ _ _))⟩
  simp only [given]
  exact render_text_eq_ok.mpr ⟨reference, referred, rfl⟩

end Listing
end ModuleIR
