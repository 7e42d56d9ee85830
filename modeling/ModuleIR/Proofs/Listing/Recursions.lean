import ModuleIR.Proofs.Arena.Running
import ModuleIR.Proofs.Listing.Bases

set_option autoImplicit false

/-!
# Recursions without a depth

Texts of types, references and anchors are read through handles by plain recursion. Nothing in the
arenas as such keeps that from going on forever. In a well-formed context it ends, since what a type or
pointer arithmetic refers to stands before it: no handle takes more calls inside one another than its
position has places up to it.
-/
namespace ModuleIR

namespace Context

open Running

def typeTextRunning (ctx : Context) : Nat → TypeRef → Running String
  | 0, _ => still
  | calls + 1, t => do
    match ← ctx.shape t with
    | .void => return "void"
    | .label => return "label"
    | .integer bits => return "i" ++ toString bits
    | .pointer pointee space => return (← ctx.typeTextRunning calls pointee) ++ space.text ++ "*"
    | .array element length =>
      return "[" ++ toString length ++ " x " ++ (← ctx.typeTextRunning calls element) ++ "]"
    | .function result params variadic =>
      let result ← ctx.typeTextRunning calls result
      let params ← params.mapM fun param => ctx.typeTextRunning calls param
      return result ++ " (" ++ ", ".intercalate (params ++ (if variadic then ["..."] else [])) ++ ")"

def anchorRunning (ctx : Context) : Nat → ValueRef → Running Anchor
  | 0, _ => still
  | calls + 1, v => do
    match (← ctx.value v).kind with
    | .global record => return .module record.module
    | .function record => return .module record.module
    | .elementPtr record => ctx.anchorRunning calls record.base
    | .argument record => return .function record.parent
    | .instruction record =>
      match (← ctx.block record.parent).parent with
      | some function => return .function function
      | none => return .detached
    | _ => return .free

end Context

def Listing.refRunning (ctx : Context) (slots : Slots) (types : Nat) : Nat → ValueRef → Running String
  | 0, _ => Running.still
  | calls + 1, v => do
    let record ← ctx.value v
    match record.kind with
    | .int n => return integerText n
    | .bytes bytes => return bytesText bytes
    | .elementPtr e =>
      let source ← ctx.typeTextRunning types e.sourceType
      let operands ← (e.base :: e.indices).mapM fun u => do
        let type ← ctx.typeTextRunning types (← ctx.valueType u)
        return type ++ " " ++ (← refRunning ctx slots types calls u)
      return "getelementptr " ++ (if e.inBounds then "inbounds " else "") ++ "(" ++ source ++ ", " ++
        ", ".intercalate operands ++ ")"
    | .global _ | .function _ => return "@" ++ referentText record.name (slots.globals.idxOf? v)
    | .argument _ | .instruction _ =>
      return "%" ++ referentText record.name (slots.locals.idxOf? (.value v))
    | .erased => throw (.inconsistent "erased values are rejected by the context")

namespace Context

open Running

variable {ctx : Context} {calls : Nat}

/-- The recursion through the types inside a type ends, and violates nothing but with the handle that it
starts from. -/
theorem WellFormed.typeTextRunning_eq (wf : ctx.WellFormed) {t : TypeRef} (enough : t.index < calls) :
    ctx.typeTextRunning calls t = ended (ctx.describeType t) := by
  induction calls generalizing t with
  | zero => omega
  | succ calls ih =>
    rw [typeTextRunning, describeType, describeTypeWithin]
    cases read : ctx.shape t with
    | error violation => rfl
    | ok s =>
      have inner {u : TypeRef} (mem : u ∈ s.inner) :
          ctx.typeTextRunning calls u = ended (ctx.describeTypeWithin t.index u) := by
        have has := wf.hasType_inner read mem
        have before := (wf.inner _ s (shape_eq_ok.mp read).2 u mem).2
        rw [ih (by omega), wf.describeType_eq has, wf.describeTypeWithin_eq has _ before]
      rw [liftM_eq, ok_bind, Checked.ok_bind]
      cases s with
      | void | label | integer => rfl
      | pointer pointee space | array element length =>
        dsimp only
        rw [inner List.mem_cons_self]
        cases ctx.describeTypeWithin t.index _ <;> rfl
      | function result params variadic =>
        have each := mapM_eq fun u (mem : u ∈ params) => inner (List.mem_cons_of_mem result mem)
        dsimp only
        rw [inner List.mem_cons_self, each]
        cases ctx.describeTypeWithin t.index result with
        | error violation => rfl
        | ok first => cases params.mapM (ctx.describeTypeWithin t.index) <;> rfl

theorem anchorRunning_within (before : ctx.BasesBefore) {depth : Nat} {v : ValueRef}
    (enough : v.index < calls) (deep : v.index < depth) :
    ctx.anchorRunning calls v = ended (ctx.anchorWithin depth v) := by
  induction calls generalizing depth v with
  | zero => omega
  | succ calls ih =>
    obtain ⟨depth, rfl⟩ := Nat.exists_eq_succ_of_ne_zero (by omega : depth ≠ 0)
    rw [anchorRunning, anchorWithin]
    cases read : ctx.value v with
    | error violation => rfl
    | ok r =>
      simp only [liftM_eq, ok_bind, Checked.ok_bind]
      cases kind : r.kind with
      | elementPtr e =>
        have lower := before v r e read kind
        exact ih (by omega) (by omega)
      | instruction i =>
        dsimp only
        cases block : ctx.block i.parent with
        | error violation => rfl
        | ok b =>
          rw [ok_bind, Checked.ok_bind]
          cases b.parent <;> rfl
      | _ => rfl

theorem anchorRunning_eq (before : ctx.BasesBefore) {v : ValueRef} (enough : v.index < calls) :
    ctx.anchorRunning calls v = ended (ctx.anchor v) :=
  anchorRunning_within before enough (Nat.lt_succ_self _)

end Context

namespace Listing

open Context Running

variable {ctx : Context} {slots : Slots} {types calls depth : Nat} {v : ValueRef}

theorem render_operands (u : ValueRef) (us : List ValueRef) :
    render (typed ctx slots depth u ++ us.flatMap fun i => .text ", " :: typed ctx slots depth i) =
      (do return ", ".intercalate (← (u :: us).mapM fun i => (typed ctx slots depth i).render)) := by
  induction us generalizing u with
  | nil =>
    rw [List.flatMap_nil, List.append_nil, List.mapM_cons, List.mapM_nil]
    cases (typed ctx slots depth u).render <;> simp
  | cons i rest ih =>
    rw [List.flatMap_cons, render_append, List.cons_append, render_cons, ih i]
    simp only [List.mapM_cons]
    cases (typed ctx slots depth u).render with
    | error violation => rfl
    | ok first =>
      cases (typed ctx slots depth i).render with
      | error violation => rfl
      | ok second =>
        cases rest.mapM fun i => (typed ctx slots depth i).render with
        | error violation => rfl
        | ok others => simp [Piece.content, String.append_assoc]

theorem typeText_ended (wf : ctx.WellFormed) (all : ctx.types.size ≤ types) {t : TypeRef}
    (has : ctx.HasType t) : ctx.typeTextRunning types t = ended (.ok (ctx.typeText t)) := by
  have ⟨s, read⟩ := has
  have inside := (Array.getElem?_eq_some_iff.mp (shape_eq_ok.mp read).2).1
  rw [wf.typeTextRunning_eq (by omega), wf.describeType_eq has]

theorem typed_running (wf : ctx.WellFormed) (all : ctx.types.size ≤ types)
    (written : refRunning ctx slots types calls v = ended (refWithin ctx slots depth v).render) :
    (do let type ← ctx.typeTextRunning types (← ctx.valueType v)
        return type ++ " " ++ (← refRunning ctx slots types calls v) : Running String) =
      ended (typed ctx slots depth v).render := by
  rw [typed, written]
  cases valued : ctx.valueType v with
  | error violation =>
    rw [describeTypeOf, valued]
    rfl
  | ok type =>
    obtain ⟨r, read, rfl⟩ := valueType_eq_ok.mp valued
    rw [liftM_eq, ok_bind, typeText_ended wf all (wf.valueSound read).type, ok_bind,
      wf.describeTypeOf_eq read, reading, render_cons]
    cases (refWithin ctx slots depth v).render <;> rfl

theorem refRunning_elementPtr (wf : ctx.WellFormed) (all : ctx.types.size ≤ types) {r : ValueRecord}
    {e : ElementPtrRecord} (read : ctx.value v = .ok r) (kind : r.kind = .elementPtr e)
    (each : ∀ u ∈ e.base :: e.indices,
      refRunning ctx slots types calls u = ended (refWithin ctx slots depth u).render) :
    refRunning ctx slots types (calls + 1) v = ended (refWithin ctx slots (depth + 1) v).render := by
  have source := typeText_ended wf all (wf.elementPtrSound read kind).sourceType
  have operands := mapM_eq fun u mem => typed_running wf all (each u mem)
  rw [refRunning, read, liftM_eq, ok_bind, kind]
  dsimp only
  rw [source, ok_bind, operands, refWithin_elementPtr wf read kind, List.cons_append, List.cons_append,
    render_cons, render_append, render_operands]
  cases (e.base :: e.indices).mapM fun u => (typed ctx slots depth u).render with
  | error violation => rfl
  | ok texts => simp [Piece.content, render_cons, String.append_assoc]

/-- The recursion through the operands of pointer arithmetic ends. -/
theorem refRunning_within (wf : ctx.WellFormed) (all : ctx.types.size ≤ types)
    (enough : v.index < calls) (deep : v.index < depth) :
    refRunning ctx slots types calls v = ended (refWithin ctx slots depth v).render := by
  induction calls generalizing depth v with
  | zero => omega
  | succ calls ih =>
    obtain ⟨depth, rfl⟩ := Nat.exists_eq_succ_of_ne_zero (by omega : depth ≠ 0)
    cases read : ctx.value v with
    | error violation =>
      rw [refRunning, refWithin, read]
      rfl
    | ok r =>
      cases kind : r.kind with
      | elementPtr e =>
        have sound := wf.elementPtrSound read kind
        refine refRunning_elementPtr wf all read kind fun u mem => ?_
        have before : u.index < v.index := by
          rcases List.mem_cons.mp mem with rfl | mem
          · exact sound.baseBefore
          · exact sound.indicesBefore u mem
        exact ih (by omega) (by omega)
      | erased => exact absurd kind (value_eq_ok.mp read).2.2
      | global | function | argument | instruction =>
        rw [refRunning, refWithin, read, liftM_eq, ok_bind, reading]
        simp only [kind, pure_eq]
        rw [render_cons, render_referent]
        rfl
      | int | bytes =>
        rw [refRunning, refWithin, read, liftM_eq, ok_bind, reading]
        simp [kind, render_cons, Piece.content]

theorem refRunning_eq (wf : ctx.WellFormed) (all : ctx.types.size ≤ types)
    (enough : v.index < calls) :
    refRunning ctx slots types calls v = ended (ref ctx slots v).render :=
  refRunning_within wf all enough (Nat.lt_succ_self _)

end Listing
end ModuleIR
