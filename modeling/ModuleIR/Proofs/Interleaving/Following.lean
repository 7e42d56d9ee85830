import ModuleIR.Proofs.Interleaving.Changes
import ModuleIR.Proofs.Interleaving.Checks
import ModuleIR.Proofs.Steps.Constants

set_option autoImplicit false

/-!
# Steps that follow

A step of the shared context follows a step of one user's own context when it succeeds wherever that
step does, answers the counterpart, and leaves the contexts side by side with more entities paired.
Steps that are made of steps that follow each other follow each other; at the bottom are checks, which
read alike, and the changes of arenas.
-/
namespace ModuleIR

open List (Forall₂)

namespace Pairing

open Checked (Echoed)

open Context

variable {α β γ δ : Type} {ρ ρ₂ : Pairing} {c₁ c₂ c : Context}

/-- Wherever the first step succeeds in the user's own context, the second does in the shared one. -/
def Follows (ρ ρ₂ : Pairing) (c₁ c₂ c : Context) (step : Build α) (step' : Build β)
    (R : Pairing → Context → α → β → Prop) : Prop :=
  ∀ a c₁', (step c₁).result = .ok (a, c₁') → ∃ b c', (step' c).result = .ok (b, c') ∧
    Onward ρ ρ₂ c₁ c₂ c₁' c' fun ρ' => R ρ' c₁' a b

namespace Follows

variable {step : Build α} {step' : Build β} {f : α → Build γ} {g : β → Build δ}
  {P : Pairing → Context → α → β → Prop} {R : Pairing → Context → γ → δ → Prop}

theorem pure (s : SideBySide ρ ρ₂ c₁ c₂ c) {a : γ} {b : δ} (h : R ρ c₁ a b) :
    Follows ρ ρ₂ c₁ c₂ c (Pure.pure a) (Pure.pure b) R := by
  intro a' c₁' run
  obtain ⟨rfl, rfl⟩ := Build.pure_eq_ok.mp run
  exact ⟨b, c, Build.pure_eq_ok.mpr ⟨rfl, rfl⟩, ρ, le_refl ρ, s, .refl c₁, h⟩

theorem bind (first : Follows ρ ρ₂ c₁ c₂ c step step' P)
    (next : ∀ ρ' c₁' c' a b, ρ ≤ ρ' → SideBySide ρ' ρ₂ c₁' c₂ c' → c₁.Keeps c₁' → P ρ' c₁' a b →
      Follows ρ' ρ₂ c₁' c₂ c' (f a) (g b) R) :
    Follows ρ ρ₂ c₁ c₂ c (step >>= f) (step' >>= g) R := by
  intro d c₁'' run
  obtain ⟨a, c₁', run₁, rest₁⟩ := Build.bind_eq_ok.mp run
  obtain ⟨b, c', run, ρ', sub, side, keeps, same⟩ := first a c₁' run₁
  obtain ⟨e, c'', rest, ρ'', sub', side', keeps', same'⟩ :=
    next ρ' c₁' c' a b sub side keeps same d c₁'' rest₁
  exact ⟨e, c'', Build.bind_eq_ok.mpr ⟨b, c', run, rest⟩, ρ'', le_trans sub sub', side',
    keeps.trans keeps', same'⟩

theorem imp {Q : Pairing → Context → α → β → Prop} (h : Follows ρ ρ₂ c₁ c₂ c step step' P)
    (weaker : ∀ ρ' c₁' a b, P ρ' c₁' a b → Q ρ' c₁' a b) : Follows ρ ρ₂ c₁ c₂ c step step' Q := by
  intro a c₁' run
  obtain ⟨b, c', run', ρ', sub, side, keeps, same⟩ := h a c₁' run
  exact ⟨b, c', run', ρ', sub, side, keeps, weaker ρ' c₁' a b same⟩

theorem read {S : α → β → Prop} {reading : Context → Checked α} {reading' : Context → Checked β}
    (echoed : Echoed S (reading c₁) (reading' c))
    (next : ∀ a b, reading c₁ = .ok a → S a b → Follows ρ ρ₂ c₁ c₂ c (f a) (g b) R) :
    Follows ρ ρ₂ c₁ c₂ c (Build.read reading >>= f) (Build.read reading' >>= g) R := by
  intro d c₁' run
  obtain ⟨a, _, success, rest⟩ := Build.bind_eq_ok.mp run
  obtain ⟨known, rfl⟩ := Build.read_eq_ok.mp success
  obtain ⟨b, known', same⟩ := echoed a known
  obtain ⟨e, c', rest', onward⟩ := next a b known same d c₁' rest
  exact ⟨e, c', Build.bind_eq_ok.mpr ⟨b, c, Build.read_eq_ok.mpr ⟨known', rfl⟩, rest'⟩, onward⟩

theorem emit {event event' : Event} {f : Unit → Build γ} {g : Unit → Build δ}
    (next : Follows ρ ρ₂ c₁ c₂ c (f ()) (g ()) R) :
    Follows ρ ρ₂ c₁ c₂ c (Build.emit event >>= f) (Build.emit event' >>= g) R := by
  intro d c₁' run
  obtain ⟨_, _, success, rest⟩ := Build.bind_eq_ok.mp run
  obtain rfl := Build.emit_eq_ok.mp success
  obtain ⟨e, c', rest', onward⟩ := next d c₁' rest
  exact ⟨e, c', Build.bind_eq_ok.mpr ⟨(), c, Build.emit_eq_ok.mpr rfl, rest'⟩, onward⟩

theorem require {p q : Bool} {v v' : Violation} {f : Unit → Build γ} {g : Unit → Build δ}
    (same : q = p) (next : Follows ρ ρ₂ c₁ c₂ c (f ()) (g ()) R) :
    Follows ρ ρ₂ c₁ c₂ c (Build.require p v >>= f) (Build.require q v' >>= g) R := by
  intro d c₁' run
  obtain ⟨_, _, success, rest⟩ := Build.bind_eq_ok.mp run
  obtain ⟨holds, rfl⟩ := Build.require_eq_ok.mp success
  obtain ⟨e, c', rest', onward⟩ := next d c₁' rest
  have passed : (Build.require q v' c).result = .ok ((), c) :=
    Build.require_eq_ok.mpr ⟨same.trans holds, rfl⟩
  exact ⟨e, c', Build.bind_eq_ok.mpr ⟨(), c, passed, rest'⟩, onward⟩

theorem update {F : Context → α × Context} {F' : Context → β × Context}
    (onward : Onward ρ ρ₂ c₁ c₂ (F c₁).2 (F' c).2 fun ρ' => P ρ' (F c₁).2 (F c₁).1 (F' c).1) :
    Follows ρ ρ₂ c₁ c₂ c (Build.update F) (Build.update F') P := by
  intro a c₁' run
  have same := Build.update_eq_ok.mp run
  have first : (F c₁).1 = a := congrArg Prod.fst same
  have second : (F c₁).2 = c₁' := congrArg Prod.snd same
  subst first second
  exact ⟨_, _, Build.update_eq_ok.mpr rfl, onward⟩

theorem change {F F' : Context → Context} {R : Pairing → Context → Unit → Unit → Prop}
    (changed : SideBySide ρ ρ₂ (F c₁) c₂ (F' c) ∧ c₁.Keeps (F c₁)) (h : R ρ (F c₁) () ()) :
    Follows ρ ρ₂ c₁ c₂ c (Build.change F) (Build.change F') R := by
  intro a c₁' run
  obtain rfl := Build.change_eq_ok.mp run
  exact ⟨(), _, Build.change_eq_ok.mpr rfl, ρ, le_refl ρ, changed.1, changed.2, h⟩

theorem changeThen {F F' : Context → Context} {f : Unit → Build γ} {g : Unit → Build δ}
    (changed : SideBySide ρ ρ₂ (F c₁) c₂ (F' c) ∧ c₁.Keeps (F c₁))
    (next : SideBySide ρ ρ₂ (F c₁) c₂ (F' c) → c₁.Keeps (F c₁) →
      Follows ρ ρ₂ (F c₁) c₂ (F' c) (f ()) (g ()) R) :
    Follows ρ ρ₂ c₁ c₂ c (Build.change F >>= f) (Build.change F' >>= g) R := by
  intro d c₁' run
  obtain ⟨_, _, success, rest⟩ := Build.bind_eq_ok.mp run
  obtain rfl := Build.change_eq_ok.mp success
  obtain ⟨e, c', rest', ρ', sub, side, keeps, same⟩ := next changed.1 changed.2 d c₁' rest
  exact ⟨e, c', Build.bind_eq_ok.mpr ⟨(), _, Build.change_eq_ok.mpr rfl, rest'⟩, ρ', sub, side,
    changed.2.trans keeps, same⟩

end Follows

/-! ### Shapes that are read -/

theorem Shapes.inner {q q' : Shape} (shapes : ρ.Shapes q q') :
    Forall₂ ρ.Types q.inner q'.inner := by
  cases shapes with
  | pointer pointee space => exact .cons pointee .nil
  | array element length => exact .cons element .nil
  | function result params variadic => exact .cons result params
  | _ => exact .nil

theorem Tracks.shape_integer (tracks : ρ.Tracks c₁ c) {t t' : TypeRef} {bits : Nat}
    (paired : ρ.Types t t') (read : c₁.shape t = .ok (.integer bits)) :
    c.shape t' = .ok (.integer bits) := by
  obtain ⟨q, read', shapes⟩ := tracks.shape t t' paired _ read
  cases shapes
  exact read'

theorem Tracks.shape_array (tracks : ρ.Tracks c₁ c) {t t' e e' : TypeRef} {length : Nat}
    (paired : ρ.Types t t') (element : ρ.Types e e') (read : c₁.shape t = .ok (.array e length)) :
    c.shape t' = .ok (.array e' length) := by
  obtain ⟨q, read', shapes⟩ := tracks.shape t t' paired _ read
  cases shapes with | array other =>
  rw [types_unique.2 element other]
  exact read'

theorem internType_shape (tabled : c.Tabled) (q : Shape) :
    (c.internType q).2.shape (c.internType q).1 = .ok q := by
  unfold Context.internType
  cases found : c.typeTable.find? q with
  | some t => exact (tabled.types q t).mp found
  | none => exact shape_addType.mpr (.inr ⟨rfl, rfl⟩)

namespace Follows

variable (s : SideBySide ρ ρ₂ c₁ c₂ c)
include s

/-! ### Types -/

theorem internType {q q' : Shape} (shapes : ρ.Shapes q q') :
    Follows ρ ρ₂ c₁ c₂ c (Build.internType q) (Build.internType q') fun ρ' c₁' t t' =>
      ρ'.Types t t' ∧ c₁'.shape t = .ok q := by
  refine .read (.forM shapes.inner fun _ _ => s.left.checkOwner) fun _ _ _ _ => .update ?_
  obtain ⟨ρ', sub, side, keeps, paired⟩ := s.internType shapes
  exact ⟨ρ', sub, side, keeps, paired, internType_shape s.leftTabled q⟩

theorem voidType :
    Follows ρ ρ₂ c₁ c₂ c Build.voidType Build.voidType fun ρ' _ t t' => ρ'.Types t t' :=
  (internType s .void).imp fun _ _ _ _ => And.left

theorem labelType :
    Follows ρ ρ₂ c₁ c₂ c Build.labelType Build.labelType fun ρ' _ t t' => ρ'.Types t t' :=
  (internType s .label).imp fun _ _ _ _ => And.left

theorem integerType (bits : Nat) :
    Follows ρ ρ₂ c₁ c₂ c (Build.integerType bits) (Build.integerType bits) fun ρ' c₁' t t' =>
      ρ'.Types t.type t'.type ∧ c₁'.shape t.type = .ok (.integer bits) :=
  .require rfl <| (internType s (.integer bits)).bind fun _ _ _ _ _ _ s _ same => .pure s same

theorem pointerType {t t' : TypeRef} (pointee : ρ.Types t t') (space : AddressSpace) :
    Follows ρ ρ₂ c₁ c₂ c (Build.pointerType t space) (Build.pointerType t' space) fun ρ' _ p p' =>
      ρ'.Types p.type p'.type := by
  refine .read (S := Eq) ?_ fun _ _ _ _ => ?_
  · refine (s.left.shape _ _ pointee).bind fun _ _ shapes => ?_
    exact .ite (by rw [shapes.isPointee]) (fun _ => .skip fun _ => .throw) fun _ => .pure rfl
  · exact (internType s (.pointer pointee space)).bind fun _ _ _ _ _ _ s _ same => .pure s same.1

theorem arrayType {t t' : TypeRef} (element : ρ.Types t t') (length : Nat) :
    Follows ρ ρ₂ c₁ c₂ c (Build.arrayType t length) (Build.arrayType t' length) fun ρ' c₁' a a' =>
      ρ'.Types a.type a'.type ∧ c₁'.shape a.type = .ok (.array t length) := by
  refine .read (S := Eq) ?_ fun _ _ _ _ => ?_
  · refine (s.left.shape _ _ element).bind fun _ _ shapes => ?_
    exact .ite (by rw [shapes.isFirstClass]) (fun _ => .skip fun _ => .throw) fun _ => .pure rfl
  · exact (internType s (.array element length)).bind fun _ _ _ _ _ _ s _ same => .pure s same

theorem functionType {t t' : TypeRef} {ts ts' : List TypeRef} (result : ρ.Types t t')
    (params : Forall₂ ρ.Types ts ts') (variadic : Bool) :
    Follows ρ ρ₂ c₁ c₂ c (Build.functionType t ts variadic) (Build.functionType t' ts' variadic)
      fun ρ' _ f f' => ρ'.Types f.type f'.type := by
  refine .read (.forM params fun _ _ param => ?_) fun _ _ _ _ => ?_
  · refine (s.left.shape _ _ param).bind fun _ _ shapes => ?_
    exact .ite (by rw [shapes.isFirstClass]) (fun _ => .skip fun _ => .throw) fun _ => .pure rfl
  · exact (internType s (.function result params variadic)).bind
      fun _ _ _ _ _ _ s _ same => .pure s same.1

/-! ### Constants -/

theorem internFree {k : ValueKind} {key : ConstantKey} {t t' : TypeRef} (free : k.isFree = true)
    (content : k.key? = some key) (kinds : ρ.Kinds k k) (types : ρ.Types t t')
    (sound : c.ConstantSound { type := t', kind := k }) :
    Follows ρ ρ₂ c₁ c₂ c (Build.update (·.internConstant key { type := t, kind := k }))
      (Build.update (·.internConstant key { type := t', kind := k })) fun ρ' _ v v' =>
        ρ'.Values v v' := by
  have keys := kinds.key?
  rw [content] at keys
  cases keys with | some keys =>
  refine .update (s.internConstant keys ⟨types, rfl, kinds⟩ content content sound ?_)
  rintro base indices inBounds rfl
  cases k with
  | int | bytes => cases content
  | _ => cases free

theorem constantInt (n : WideInt) :
    Follows ρ ρ₂ c₁ c₂ c (Build.constantInt n) (Build.constantInt n) fun ρ' _ k k' =>
      ρ'.Values k.value k'.value := by
  refine (integerType s n.bits).bind fun ρ c₁ c t t' _ s _ ⟨types, shape⟩ => ?_
  refine (internFree s rfl rfl (.int n) types ⟨rfl, s.left.shape_integer types shape⟩).bind
    fun _ _ _ _ _ _ s _ paired => .pure s paired

theorem constantSigned {t t' : IntegerTypeRef} (types : ρ.Types t.type t'.type) (value : Int64) :
    Follows ρ ρ₂ c₁ c₂ c (Build.constantSigned t value) (Build.constantSigned t' value)
      fun ρ' _ k k' => ρ'.Values k.value k'.value := by
  refine .read (s.left.integerBits types) fun bits _ _ same => ?_
  subst same
  refine .read (S := Eq) (fun n read => ⟨n, read, rfl⟩) fun n _ _ same => ?_
  subst same
  exact constantInt s n

theorem constantBool (value : Bool) :
    Follows ρ ρ₂ c₁ c₂ c (Build.constantBool value) (Build.constantBool value)
      fun ρ' _ k k' => ρ'.Values k.value k'.value := by
  refine .read (S := Eq) (fun n read => ⟨n, read, rfl⟩) fun n _ _ same => ?_
  subst same
  exact constantInt s n

theorem constantString (text : String) (addNull : Bool) :
    Follows ρ ρ₂ c₁ c₂ c (Build.constantString text addNull) (Build.constantString text addNull)
      fun ρ' _ k k' => ρ'.Values k.value k'.value := by
  refine (integerType s 8).bind fun ρ c₁ c byte byte' _ s _ ⟨bytes, eight⟩ => ?_
  refine (arrayType s bytes _).bind fun ρ c₁ c t t' sub s keeps ⟨types, shape⟩ => ?_
  have sound : c.ConstantSound { type := t'.type, kind := .bytes (Build.stringBytes text addNull) } :=
    ⟨rfl, byte'.type, s.left.shape_integer (bytes.mono sub) (keeps.shape _ _ eight),
      s.left.shape_array types (bytes.mono sub) shape⟩
  exact (internFree s rfl rfl (.bytes _) types sound).bind
    fun _ _ _ _ _ _ s _ paired => .pure s paired

omit s in
theorem pointer_own (s : SideBySide ρ ρ₂ c₁ c₂ c) {k k' : ConstantRef} {pointee : TypeRef}
    {space : AddressSpace} (base : ρ.Through ConstantRef.value k k')
    (read : c₁.pointerParts k = .ok (pointee, space)) (e : Entity) :
    ¬ρ₂.pairs e (.value k'.value) := by
  intro paired
  obtain ⟨r, known, free⟩ := s.apart _ e _ base paired
  obtain ⟨⟨pointee', space'⟩, read', _⟩ := s.left.pointerParts base _ read
  obtain ⟨r', known', pointer⟩ := pointerParts_eq_ok.mp read'
  obtain rfl := Checked.unique known known'
  have sound := s.constants _ _ known
  obtain ⟨type, name, kind⟩ := r
  cases kind with
  | int n => exact Shape.noConfusion (Checked.unique pointer sound.2)
  | bytes content =>
    obtain ⟨_, _, _, array⟩ := sound
    exact Shape.noConfusion (Checked.unique pointer array)
  | _ => cases free

theorem elementPtr {k k' : ConstantRef} {ks ks' : List ConstantRef}
    (base : ρ.Through ConstantRef.value k k') (indices : Forall₂ (ρ.Through ConstantRef.value) ks ks')
    (inBounds : Bool) :
    Follows ρ ρ₂ c₁ c₂ c (Build.elementPtr k ks inBounds) (Build.elementPtr k' ks' inBounds)
      fun ρ' _ p p' => ρ'.Values p.value p'.value := by
  refine .read (s.left.pointerParts base) fun ⟨source, space⟩ ⟨source', space'⟩ read same => ?_
  obtain ⟨sources, rfl⟩ := same
  have own := pointer_own s base read
  refine .read (s.left.elementType sources indices) fun element element' _ elements => ?_
  refine (pointerType s elements space').bind fun ρ c₁ c t t' sub s _ types => ?_
  have operands : Forall₂ ρ.Values (ks.map (·.value)) (ks'.map (·.value)) :=
    List.forall₂_map_left_iff.mpr (List.forall₂_map_right_iff.mpr (through_mono sub indices))
  have records : ρ.ValueRecords
      { type := t.type, kind := .elementPtr ⟨source, k.value, ks.map (·.value), inBounds⟩ }
      { type := t'.type, kind := .elementPtr ⟨source', k'.value, ks'.map (·.value), inBounds⟩ } :=
    ⟨types, rfl, .elementPtr ⟨sources.mono sub, base.mono sub, operands, rfl⟩⟩
  refine bind (.update (s.internConstant (.elementPtr (base.mono sub) operands inBounds) records rfl
    rfl rfl ?_)) fun _ _ _ _ _ _ s _ paired => .pure s paired
  rintro _ _ _ ⟨⟩
  exact own

end Follows
end Pairing
end ModuleIR
