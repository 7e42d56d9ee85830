import Mathlib.Data.List.Nodup
import ModuleIR.Proofs.Arena.WellFormed

set_option autoImplicit false

/-!
# Types as trees

A type of a context, with the types inside it written out in place of their handles. In a well-formed
context the tree tells the type, since shapes that are alike all the way down are found under one
handle. The tree stays as long as the shapes do.
-/
namespace ModuleIR

/-- A type with the types inside it. -/
inductive TypeTree where
  | void
  | label
  | integer (bits : Nat)
  | pointer (pointee : TypeTree) (space : AddressSpace)
  | array (element : TypeTree) (length : Nat)
  | function (result : TypeTree) (params : List TypeTree) (variadic : Bool)

namespace Shape

def tree (inner : TypeRef → TypeTree) : Shape → TypeTree
  | .void => .void
  | .label => .label
  | .integer bits => .integer bits
  | .pointer pointee space => .pointer (inner pointee) space
  | .array element length => .array (inner element) length
  | .function result params variadic => .function (inner result) (params.map inner) variadic

theorem tree_congr {f g : TypeRef → TypeTree} {s : Shape} (same : ∀ u ∈ s.inner, f u = g u) :
    s.tree f = s.tree g := by
  cases s with
  | void | label | integer => rfl
  | pointer pointee space | array element length =>
    simp only [tree, same _ List.mem_cons_self]
  | function result params variadic =>
    have params : params.map f = params.map g :=
      List.map_congr_left fun u mem => same u (List.mem_cons_of_mem _ mem)
    simp only [tree, same _ List.mem_cons_self, params]

theorem eq_of_map_tree_eq {f : TypeRef → TypeTree} {params params' : List TypeRef}
    (inner : ∀ u ∈ params, ∀ u' ∈ params', f u = f u' → u = u')
    (same : params.map f = params'.map f) : params = params' := by
  induction params generalizing params' with
  | nil => exact (List.map_eq_nil_iff.mp same.symm).symm
  | cons u rest ih =>
    cases params' with
    | nil => cases same
    | cons u' rest' =>
      obtain ⟨first, others⟩ := List.cons.inj same
      rw [inner u List.mem_cons_self u' List.mem_cons_self first, ih (fun v mem v' mem' =>
        inner v (List.mem_cons_of_mem _ mem) v' (List.mem_cons_of_mem _ mem')) others]

theorem tree_inj {f : TypeRef → TypeTree} {s s' : Shape}
    (inner : ∀ u ∈ s.inner, ∀ u' ∈ s'.inner, f u = f u' → u = u') (same : s.tree f = s'.tree f) :
    s = s' := by
  cases s with
  | void =>
    cases s' with
    | void => rfl
    | _ => cases same
  | label =>
    cases s' with
    | label => rfl
    | _ => cases same
  | integer bits =>
    cases s' with
    | integer bits' => rw [TypeTree.integer.inj same]
    | _ => cases same
  | pointer pointee space =>
    cases s' with
    | pointer pointee' space' =>
      obtain ⟨pointees, rfl⟩ := TypeTree.pointer.inj same
      rw [inner _ List.mem_cons_self _ List.mem_cons_self pointees]
    | _ => cases same
  | array element length =>
    cases s' with
    | array element' length' =>
      obtain ⟨elements, rfl⟩ := TypeTree.array.inj same
      rw [inner _ List.mem_cons_self _ List.mem_cons_self elements]
    | _ => cases same
  | function result params variadic =>
    cases s' with
    | function result' params' variadic' =>
      obtain ⟨results, rows, rfl⟩ := TypeTree.function.inj same
      have params : params = params' := eq_of_map_tree_eq (fun u mem u' mem' =>
        inner u (List.mem_cons_of_mem _ mem) u' (List.mem_cons_of_mem _ mem')) rows
      rw [inner _ List.mem_cons_self _ List.mem_cons_self results, params]
    | _ => cases same

end Shape

namespace Context

def treeWithin (ctx : Context) : Nat → TypeRef → TypeTree
  | 0, _ => .void
  | depth + 1, t =>
    match ctx.types[t.index]? with
    | none => .void
    | some shape => shape.tree (ctx.treeWithin depth)

/-- The tree of a type. The types inside a type stand before it in the arena, so its position bounds
the nesting. -/
def tree (ctx : Context) (t : TypeRef) : TypeTree := ctx.treeWithin (t.index + 1) t

/-- The types of the first are types of the second, with their shapes. -/
structure KeepsTypes (ctx ctx' : Context) : Prop where
  id : ctx'.id = ctx.id
  types : ∀ (i : Nat) shape, ctx.types[i]? = some shape → ctx'.types[i]? = some shape

instance : Std.Refl KeepsTypes := ⟨fun _ => ⟨rfl, fun _ _ h => h⟩⟩

instance : IsTrans Context KeepsTypes := ⟨fun _ _ _ first second =>
  ⟨second.id.trans first.id, fun i shape h => second.types i shape (first.types i shape h)⟩⟩

variable {ctx ctx' : Context} {t t' : TypeRef} {s : Shape}

theorem KeepsTypes.shape (k : ctx.KeepsTypes ctx') (read : ctx.shape t = .ok s) :
    ctx'.shape t = .ok s := by
  obtain ⟨owner, stored⟩ := shape_eq_ok.mp read
  exact shape_eq_ok.mpr ⟨owner.trans k.id.symm, k.types _ _ stored⟩

theorem Grows.keepsTypes (g : ctx.Grows ctx') : ctx.KeepsTypes ctx' := ⟨g.id, g.types⟩

/-! ### The equations of trees -/

theorem treeWithin_succ {depth : Nat} (read : ctx.shape t = .ok s) :
    ctx.treeWithin (depth + 1) t = s.tree (ctx.treeWithin depth) := by
  rw [treeWithin, (shape_eq_ok.mp read).2]

namespace WellFormed

variable (wf : ctx.WellFormed)
include wf

theorem treeWithin_eq (has : ctx.HasType t) :
    ∀ depth, t.index < depth → ctx.treeWithin depth t = ctx.tree t := by
  refine wf.type_induction
    (motive := fun t => ∀ depth, t.index < depth → ctx.treeWithin depth t = ctx.tree t)
    (fun t s read inner depth deep => ?_) has
  obtain ⟨depth, rfl⟩ : ∃ d, depth = d + 1 := ⟨depth - 1, by omega⟩
  rw [tree, treeWithin_succ read, treeWithin_succ read]
  refine Shape.tree_congr fun u mem => ?_
  have before := (wf.inner _ s (shape_eq_ok.mp read).2 u mem).2
  rw [(inner u mem).2 depth (by omega), (inner u mem).2 t.index before]

theorem tree_eq (read : ctx.shape t = .ok s) : ctx.tree t = s.tree ctx.tree := by
  rw [tree, treeWithin_succ read]
  refine Shape.tree_congr fun u mem => ?_
  exact wf.treeWithin_eq (wf.hasType_inner read mem) _
    (wf.inner _ s (shape_eq_ok.mp read).2 u mem).2

theorem tree_injective (has : ctx.HasType t) :
    ∀ t', ctx.HasType t' → ctx.tree t = ctx.tree t' → t = t' := by
  refine wf.type_induction
    (motive := fun t => ∀ t', ctx.HasType t' → ctx.tree t = ctx.tree t' → t = t')
    (fun t s read inner => ?_) has
  rintro t' ⟨s', read'⟩ same
  rw [wf.tree_eq read, wf.tree_eq read'] at same
  obtain rfl : s = s' := Shape.tree_inj
    (fun u mem u' mem' => (inner u mem).2 u' (wf.hasType_inner read' mem')) same
  have found := (wf.typeTable s t).mpr read
  rw [(wf.typeTable s t').mpr read'] at found
  exact (Option.some.inj found).symm

theorem tree_kept (wf' : ctx'.WellFormed) (k : ctx.KeepsTypes ctx') (has : ctx.HasType t) :
    ctx'.tree t = ctx.tree t := by
  refine wf.type_induction (motive := fun t => ctx'.tree t = ctx.tree t)
    (fun t s read inner => ?_) has
  rw [wf.tree_eq read, wf'.tree_eq (k.shape read)]
  exact Shape.tree_congr fun u mem => (inner u mem).2

theorem trees : ∃ trees : List TypeTree, trees.Nodup ∧ trees.length = ctx.numTypes ∧
    ∀ tree, tree ∈ trees ↔ ∃ t, ctx.HasType t ∧ ctx.tree t = tree := by
  have has {i : Nat} (inside : i < ctx.numTypes) : ctx.HasType ⟨ctx.id, i⟩ :=
    ⟨_, shape_eq_ok.mpr ⟨rfl, Array.getElem?_eq_getElem inside⟩⟩
  refine ⟨(List.range ctx.numTypes).map fun i => ctx.tree ⟨ctx.id, i⟩, ?_, by simp, fun tree => ?_⟩
  · refine List.Nodup.map_on (fun i mem j mem' same => ?_) List.nodup_range
    exact congrArg TypeRef.index (wf.tree_injective (has (List.mem_range.mp mem)) _
      (has (List.mem_range.mp mem')) same)
  · rw [List.mem_map]
    constructor
    · rintro ⟨i, mem, same⟩
      exact ⟨_, has (List.mem_range.mp mem), same⟩
    · rintro ⟨t, ⟨s, read⟩, same⟩
      obtain ⟨owner, stored⟩ := shape_eq_ok.mp read
      refine ⟨t.index, List.mem_range.mpr (Array.getElem?_eq_some_iff.mp stored).1, ?_⟩
      rw [← same, ← owner]

end WellFormed
end Context
end ModuleIR
