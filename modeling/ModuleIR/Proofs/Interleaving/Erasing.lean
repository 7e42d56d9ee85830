import ModuleIR.Proofs.Interleaving.Checks
import ModuleIR.Proofs.Interleaving.Sharing
import ModuleIR.Proofs.Steps.Survivors

set_option autoImplicit false

/-!
# Erasing alike

A module that one user erases is erased from the shared context too. What belongs to the module in his
own context are the counterparts of what belongs to it in the shared one, and nothing that the other
user has belongs to it.
-/
namespace ModuleIR

namespace Context

theorem Erases.has {ctx ctx' : Context} {m : ModuleRef} (e : ctx.Erases m ctx') {k : Entity}
    (has : ctx.Has k) : ctx'.Has k := by
  have inside {α : Type} {xs : Array α} {i : Nat} (stored : ∃ x, xs[i]? = some x) : i < xs.size :=
    (Array.getElem?_eq_some_iff.mp stored.choose_spec).1
  cases k with
  | type t =>
    obtain ⟨shape, stored, _⟩ := e.fits (h := .type .any t) ⟨_, Array.getElem?_eq_getElem has.2, rfl⟩
    exact ⟨has.1.trans e.id.symm, inside ⟨shape, stored⟩⟩
  | value v =>
    obtain ⟨r, stored, _⟩ := e.fits (h := .value .any v)
      ⟨_, Array.getElem?_eq_getElem has.2, .inl rfl⟩
    exact ⟨has.1.trans e.id.symm, inside ⟨r, stored⟩⟩
  | block b =>
    have stored := e.fits (h := .block b) ⟨_, Array.getElem?_eq_getElem has.2⟩
    exact ⟨has.1.trans e.id.symm, inside stored⟩
  | module n =>
    have stored := e.fits (h := .module n) ⟨_, Array.getElem?_eq_getElem has.2⟩
    exact ⟨has.1.trans e.id.symm, inside stored⟩

end Context

namespace Pairing

open Context

variable {ρ ρ₂ : Pairing} {c₁ c₂ c c₁' c' : Context} {m m' : ModuleRef}

namespace Tracks

/-- What belongs to a module is the counterpart of what belongs to its counterpart. -/
theorem belongsTo_iff (tracks : ρ.Tracks c₁ c) (wf₁ : c₁.WellFormed) (modules : ρ.Modules m m')
    {v v' : ValueRef} {r : ValueRecord} (paired : ρ.Values v v') (read : c₁.value v = .ok r) :
    c.BelongsTo m' v' ↔ c₁.BelongsTo m v := by
  obtain ⟨anchor, home⟩ := wf₁.anchored read
  obtain ⟨anchor', home', anchors⟩ := tracks.anchored paired home
  cases anchors with
  | free => exact iff_of_false (not_belongsTo_free home') (not_belongsTo_free home)
  | module owner =>
    rw [belongsTo_listed home, belongsTo_listed home', eq_iff modules_unique owner modules]
  | function inside =>
    obtain ⟨fr, known⟩ := wf₁.function_of_anchored home
    obtain ⟨fr', known', same⟩ := tracks.function inside fr known
    rw [belongsTo_inside home known, belongsTo_inside home' known',
      eq_iff modules_unique same.module modules]
  | detached =>
    refine iff_of_false ?_ ?_
    · rintro (other | ⟨_, _, other, _⟩)
      · cases home'.unique other
      · cases home'.unique other
    · rintro (other | ⟨_, _, other, _⟩)
      · cases home.unique other
      · cases home.unique other

theorem blockBelongsTo_iff (tracks : ρ.Tracks c₁ c) (wf₁ : c₁.WellFormed)
    (modules : ρ.Modules m m') {b b' : BlockRef} {r : BlockRecord} (paired : ρ.Blocks b b')
    (read : c₁.block b = .ok r) : c.BlockBelongsTo m' b' ↔ c₁.BlockBelongsTo m b := by
  obtain ⟨r', read', same⟩ := tracks.block b b' paired r read
  have parents := same.parent
  cases parent : r.parent with
  | none =>
    rw [parent] at parents
    cases parent' : r'.parent with
    | some f' => rw [parent'] at parents; cases parents
    | none =>
      exact iff_of_false (not_blockBelongsTo_detached read' parent')
        (not_blockBelongsTo_detached read parent)
  | some f =>
    rw [parent] at parents
    cases parent' : r'.parent with
    | none => rw [parent'] at parents; cases parents
    | some f' =>
      rw [parent'] at parents
      cases parents with | some functions =>
      obtain ⟨fr, known, _⟩ := wf₁.block_listed read parent
      obtain ⟨fr', known', records⟩ := tracks.function functions fr known
      rw [blockBelongsTo_placed read parent known, blockBelongsTo_placed read' parent' known',
        eq_iff modules_unique records.module modules]

/-- A module and its counterpart are erased, each with all that belongs to it. -/
theorem erase (tracks : ρ.Tracks c₁ c) (wf₁ : c₁.WellFormed) (modules : ρ.Modules m m')
    (e₁ : c₁.Erases m c₁') (e : c.Erases m' c') : ρ.Tracks c₁' c' := by
  refine .of_mirrored ?_ ?_ ?_ ?_ ?_ ?_ ?_
  · exact fun k k' paired => ⟨e₁.has (tracks.has k k' paired).1, e.has (tracks.has k k' paired).2⟩
  · intro t t' paired s read
    rw [e.shape]
    exact tracks.shape t t' paired s ((e₁.shape t).symm.trans read)
  · exact fun v v' paired => (tracks.values paired).restrict (fun _ => e₁.value) (fun _ => e.value)
      fun r read => not_congr (tracks.belongsTo_iff wf₁ modules paired read)
  · exact fun b b' paired => (tracks.blocks paired).restrict (fun _ => e₁.block) (fun _ => e.block)
      fun r read => not_congr (tracks.blockBelongsTo_iff wf₁ modules paired read)
  · exact fun n n' paired => (tracks.modules paired).restrict (fun _ => e₁.module) (fun _ => e.module)
      fun r _ => not_congr (eq_iff modules_unique paired modules)
  · exact fun t s read => tracks.allTypes t s ((e₁.shape t).symm.trans read)
  · exact fun v r read => tracks.allValues v r (e₁.value.mp read).1

end Tracks

namespace SideBySide

variable (s : SideBySide ρ ρ₂ c₁ c₂ c)
include s

theorem function_unshared (modules : ρ.Modules m m') {u : ValueRef} {f' : FunctionRef}
    {fr' : FunctionRecord} (known' : c.function f' = .ok fr') (home : fr'.module = m')
    (paired : ρ₂.Values u f'.value) : False := by
  obtain ⟨fr, _, same⟩ := s.right.function_origin paired known'
  have owner := same.module
  rw [home] at owner
  exact s.apart _ _ _ modules owner

theorem spared (wf₂ : c₂.WellFormed) (modules : ρ.Modules m m') {u v : ValueRef} {r : ValueRecord}
    (paired : ρ₂.Values u v) (read : c.value v = .ok r) : ¬c.BelongsTo m' v := by
  intro belongs
  obtain ⟨r₂, read₂, _⟩ := (s.right.values paired).origin read
  obtain ⟨anchor, home⟩ := wf₂.anchored read₂
  obtain ⟨anchor', home', anchors⟩ := s.right.anchored paired home
  rcases belongs with own | ⟨f', fr', inside, known', within⟩
  · obtain rfl := home'.unique own
    cases anchors with | module owner =>
    exact s.apart _ _ _ modules owner
  · obtain rfl := home'.unique inside
    cases anchors with | function functions =>
    exact s.function_unshared modules known' within functions

theorem spared_block (wf : c.WellFormed) (modules : ρ.Modules m m') {a b : BlockRef}
    (paired : ρ₂.Blocks a b) : ¬c.BlockBelongsTo m' b := by
  rintro ⟨br, f', fr', read, parent, known', within⟩
  obtain ⟨_, known'', listed⟩ := wf.block_listed read parent
  obtain rfl := Checked.unique known' known''
  obtain ⟨value', read', _⟩ := function_eq_ok.mp known'
  rcases s.covered _ _ read' with ⟨v, mine⟩ | ⟨u, other⟩
  · obtain ⟨fr, _, same⟩ := s.left.function_origin mine known'
    obtain ⟨a', _, blocks⟩ := exists_of_mem same.blocks listed
    exact s.apart _ _ _ blocks paired
  · exact s.function_unshared modules known' within other

/-- The first user erases a module; what the other user has stays. -/
theorem erase (wf₁ : c₁.WellFormed) (wf₂ : c₂.WellFormed) (wf : c.WellFormed)
    (modules : ρ.Modules m m') (e₁ : c₁.Erases m c₁') (e : c.Erases m' c') (tabled₁ : c₁'.Tabled)
    (tabled : c'.Tabled) : SideBySide ρ ρ₂ c₁' c₂ c' := by
  have shape (t : TypeRef) (q : Shape) (read : c.shape t = .ok q) : c'.shape t = .ok q :=
    (e.shape t).trans read
  have value (v : ValueRef) (r : ValueRecord) (stays : ∀ q, c.value v = .ok q → ¬c.BelongsTo m' v) :
      c'.value v = .ok r ↔ c.value v = .ok r :=
    e.value.trans ⟨And.left, fun read => ⟨read, stays r read⟩⟩
  refine ⟨s.left.erase wf₁ modules e₁ e, ?_, ?_, ?_, ?_, tabled₁, s.rightTabled, tabled⟩
  · refine s.right.frame (fun k => e.has) shape ?_ ?_ ?_
    · exact fun u v paired r => value v r fun q read => s.spared wf₂ modules paired read
    · intro a b paired r
      exact e.block.trans ⟨And.left, fun read => ⟨read, s.spared_block wf modules paired⟩⟩
    · intro n k paired r
      refine e.module.trans ⟨And.left, fun read => ⟨read, ?_⟩⟩
      rintro rfl
      exact s.apart _ _ _ modules paired
  · intro k k₂ l pair pair₂
    have shared := s.apart k k₂ l pair pair₂
    cases l with
    | type => exact trivial
    | value v =>
      obtain ⟨r, read, free⟩ := shared
      cases k₂ with
      | value u =>
        exact ⟨r, (value v r fun q read => s.spared wf₂ modules pair₂ read).mpr read, free⟩
      | type | block | module => cases ρ₂.kinds _ _ pair₂
    | block | module => exact shared
  · exact fun v r read => s.covered v r (e.value.mp read).1
  · exact fun v r read => (s.constants v r (e.value.mp read).1).mono shape

end SideBySide
end Pairing
end ModuleIR
