import ModuleIR.Proofs.WideInt.Conversions
import ModuleIR.Proofs.World.Forest
import ModuleIR.Proofs.World.Permanence

set_option autoImplicit false

/-!
# Identity of constants

A constant is described by its width and residue, by its bytes, or by base, indices and bounds flag.
The table of constants holds exactly what is alive, under its content and with the type that the
content determines, also after erasures. Two calls of constant factories on one context, with any
operations between them, answer one handle exactly when they describe one constant: integers and bytes
are never erased, and pointer arithmetic goes only together with its base, over which nothing can be
made any more.
-/
namespace ModuleIR

open Context

/-- What a constant is described by. -/
inductive ConstantForm where
  | int (bits : Nat) (residue : Int)
  | bytes (content : List UInt8)
  | elementPtr (base : ValueRef) (indices : List ValueRef) (inBounds : Bool)

namespace ConstantKey

def form : ConstantKey → ConstantForm
  | .int n => .int n.bits n.toNat
  | .bytes content => .bytes content
  | .elementPtr base indices inBounds => .elementPtr base indices inBounds

def StoredIn (ctx : Context) (r : ValueRecord) : ConstantKey → Prop
  | .int n => r.kind = .int n ∧ ctx.shape r.type = .ok (.integer n.bits)
  | .bytes content => r.kind = .bytes content ∧ ∃ byte,
      ctx.shape r.type = .ok (.array byte content.length) ∧ ctx.shape byte = .ok (.integer 8)
  | .elementPtr base indices inBounds => ∃ source br space element,
      r.kind = .elementPtr ⟨source, base, indices, inBounds⟩ ∧ ctx.value base = .ok br ∧
        ctx.shape br.type = .ok (.pointer source space) ∧
          ctx.Reaches (indices.length - 1) source element ∧
            ctx.shape r.type = .ok (.pointer element space)

/-- Canonical integers are known by their form, and so is every key. -/
theorem form_inj {key key' : ConstantKey} (canonical : ∀ n, key = .int n → n.Canonical)
    (canonical' : ∀ n, key' = .int n → n.Canonical) (same : key.form = key'.form) : key = key' := by
  cases key with
  | int n =>
    cases key' with
    | int n' =>
      obtain ⟨bits, values⟩ := ConstantForm.int.inj same
      rw [(canonical n rfl).ext (canonical' n' rfl) bits (Int.ofNat_inj.mp values)]
    | _ => cases same
  | bytes content =>
    cases key' with
    | bytes content' => rw [ConstantForm.bytes.inj same]
    | _ => cases same
  | elementPtr base indices inBounds =>
    cases key' with
    | elementPtr base' indices' inBounds' =>
      obtain ⟨rfl, rfl, rfl⟩ := ConstantForm.elementPtr.inj same
      rfl
    | _ => cases same

end ConstantKey

theorem ValueKind.Becomes.key?_eq {k k' : ValueKind} (h : Becomes k k') : k'.key? = k.key? := by
  cases h <;> rfl

/-! ### What is alive under a content -/

namespace Context

variable {ctx ctx' ctx'' : Context} {v : ValueRef} {r : ValueRecord} {key : ConstantKey}

theorem storedIn_of_key (suits : ctx.Suits r.type r.kind) (content : r.kind.key? = some key) :
    key.StoredIn ctx r := by
  cases kind : r.kind with
  | int n =>
    rw [kind] at suits content
    obtain rfl := Option.some.inj content
    exact ⟨kind, suits.2⟩
  | bytes bs =>
    rw [kind] at suits content
    obtain rfl := Option.some.inj content
    exact ⟨kind, suits⟩
  | elementPtr e =>
    rw [kind] at suits content
    obtain rfl := Option.some.inj content
    obtain ⟨br, element, space, read, pointed, walk, shaped⟩ := suits
    exact ⟨e.sourceType, br, space, element, kind, read, pointed, walk, shaped⟩
  | _ =>
    rw [kind] at content
    cases content

theorem AllWellMade.canonical (made : ctx.AllWellMade) (read : ctx.value v = .ok r)
    (content : r.kind.key? = some key) (n : WideInt) (int : key = .int n) : n.Canonical := by
  have suits := (made v r read).1
  cases kind : r.kind with
  | int n' =>
    rw [kind] at suits content
    obtain rfl := ConstantKey.int.inj ((Option.some.inj content).trans int)
    exact suits.1.canonical
  | bytes | elementPtr =>
    rw [kind] at content
    obtain rfl := Option.some.inj content
    cases int
  | _ =>
    rw [kind] at content
    cases content

/-! ### Constants last -/

/-- Tombstones stay, and so does every constant with its content, unless it is pointer arithmetic that
is erased together with its base. -/
structure ConstantsLast (ctx ctx' : Context) : Prop where
  retains : ctx.Retains ctx'
  constants : ∀ v r key, ctx.value v = .ok r → r.kind.key? = some key →
    (∃ r', ctx'.value v = .ok r' ∧ r'.kind.key? = some key) ∨
      ∃ base indices inBounds, key = .elementPtr base indices inBounds ∧
        ctx'.Tombstone (.value .any v) ∧ ctx'.Tombstone (.value .any base)

instance : Std.Refl ConstantsLast := ⟨fun _ => ⟨fun _ gone => gone,
  fun _ r _ read content => .inl ⟨r, read, content⟩⟩⟩

instance : IsTrans Context ConstantsLast where
  trans _ _ _ first second := {
    retains := fun h gone => second.retains h (first.retains h gone)
    constants := by
      intro v r key read content
      rcases first.constants v r key read content with
        ⟨r', read', content'⟩ | ⟨base, indices, inBounds, rfl, gone, gone'⟩
      · exact second.constants v r' key read' content'
      · exact .inr ⟨base, indices, inBounds, rfl, second.retains _ gone, second.retains _ gone'⟩ }

theorem Grows.constantsLast (g : ctx.Grows ctx') : ctx.ConstantsLast ctx' where
  retains := g.retains
  constants := by
    intro v r key read content
    obtain ⟨r', read', _, step⟩ := g.value read
    exact .inl ⟨r', read', step.key?_eq.trans content⟩

theorem Erases.constantsLast {m : ModuleRef} {mr : ModuleRecord} (e : ctx.Erases m ctx')
    (wf : ctx.WellFormed) (live : ctx.module m = .ok mr) : ctx.ConstantsLast ctx' where
  retains h gone := (e.tombstone_iff wf live).mpr (.inl gone)
  constants := by
    intro v r key read content
    have goes_iff {u : ValueRef} (belongs : ctx.BelongsTo m u) : ctx'.Tombstone (.value .any u) :=
      (e.tombstone_value wf live).mpr (.inr ((owns_iff wf live).mpr belongs))
    by_cases goes : ctx.BelongsTo m v
    · cases kind : r.kind with
      | elementPtr p =>
        rw [kind] at content
        exact .inr ⟨p.base, p.indices, p.inBounds, (Option.some.inj content).symm, goes_iff goes,
          goes_iff ((belongsTo_elementPtr read kind).mp goes)⟩
      | int | bytes =>
        have free : ctx.Anchored v .free := (anchored_iff read).mpr (by rw [kind]; rfl)
        exact absurd goes (not_belongsTo_free free)
      | _ =>
        rw [kind] at content
        cases content
    · exact .inl ⟨r, e.value.mpr ⟨read, goes⟩, content⟩

end Context

/-! ### Constant factories -/

namespace Request

/-- What a constant factory is asked for. -/
inductive Describes (ctx : Context) : Request → ConstantForm → Prop
  | int {n : WideInt} {built : n.Built} : Describes ctx (.constantInt n built) (.int n.bits n.toNat)
  | signed {type : IntegerTypeRef} {value : Int64} {bits : Nat}
      (typed : ctx.shape type.type = .ok (.integer bits)) :
      Describes ctx (.constantSigned type value) (.int bits (value.toInt % 2 ^ bits))
  | bool {value : Bool} : Describes ctx (.constantBool value) (.int 1 (if value then 1 else 0))
  | string {text : String} {addNull : Bool} :
      Describes ctx (.constantString text addNull) (.bytes (Build.stringBytes text addNull))
  | elementPtr {base : ConstantRef} {indices : List ConstantRef} {inBounds : Bool} :
      Describes ctx (.elementPtr base indices inBounds)
        (.elementPtr base.value (indices.map (·.value)) inBounds)

variable {ctx ctx' : Context} {request : Request} {form : ConstantForm} {answers : List Handle}

/-- A constant factory that succeeds answers a constant of the form it was asked for, which is alive. -/
theorem constant_of_run (wf : ctx.WellFormed) (admitted : ∀ h ∈ request.handles, ctx.Admits h)
    (describes : request.Describes ctx form)
    (run : (request.run ctx).result = .ok (answers, ctx')) :
    ∃ view v r key, answers = [.value view v] ∧ ctx'.value v = .ok r ∧ r.kind.key? = some key ∧
      key.form = form := by
  cases describes with
  | @int n =>
    obtain ⟨c, built, rfl⟩ := answer_eq_ok run
    obtain ⟨_, _, r, read, kind⟩ := Build.constantInt_spec wf built
    exact ⟨_, c.value, r, .int n, rfl, read, by rw [kind]; rfl, rfl⟩
  | @signed type value bits typed =>
    obtain ⟨c, built, rfl⟩ := answer_eq_ok run
    obtain ⟨_, _, r, bits', typed', valid, read, kind⟩ := Build.constantSigned_spec wf built
    obtain rfl := Checked.unique (integerBits_eq_ok.mpr typed) typed'
    have residue := WideInt.toNat_ofInt64 (WideInt.positive_of_validWidth valid) value
    exact ⟨_, c.value, r, .int (.ofInt64 bits value), rfl, read, by rw [kind]; rfl,
      congrArg (ConstantForm.int bits) residue⟩
  | @bool value =>
    obtain ⟨c, built, rfl⟩ := answer_eq_ok run
    obtain ⟨_, _, r, read, kind⟩ := Build.constantBool_spec wf built
    refine ⟨_, c.value, r, .int _, rfl, read, by rw [kind]; rfl, ?_⟩
    cases value <;> rfl
  | @string text addNull =>
    obtain ⟨c, built, rfl⟩ := answer_eq_ok run
    obtain ⟨_, _, r, read, kind⟩ := Build.constantString_spec wf built
    exact ⟨_, c.value, r, .bytes _, rfl, read, by rw [kind]; rfl, rfl⟩
  | @elementPtr base indices inBounds =>
    obtain ⟨c, built, rfl⟩ := answer_eq_ok run
    obtain ⟨_, _, r, source, read, kind⟩ :=
      Build.elementPtr_spec wf (admitted _ List.mem_cons_self) built
    exact ⟨_, c.value, r, .elementPtr _ _ _, rfl, read, by rw [kind]; rfl, rfl⟩

theorem constantsLast (wf : ctx.WellFormed) (admitted : ∀ h ∈ request.handles, ctx.Admits h)
    (run : (request.run ctx).result = .ok (answers, ctx')) : ctx.ConstantsLast ctx' := by
  obtain ⟨effect, _⟩ := Request.effect wf admitted run
  rcases effect.grows_or_erases with grows | ⟨m, rfl, erases⟩
  · exact grows.constantsLast
  · obtain ⟨built, _⟩ := silent_eq_ok run
    obtain ⟨⟨mr, live⟩, _⟩ := Build.eraseModule_spec wf built
    exact erases.constantsLast wf live

end Request

namespace World

/-- A constant factory is called on the context at `k`. It is asked for a constant of the form `form`,
and answers `v`. -/
inductive ConstantCall (w : World) (k : Nat) : ConstantForm → ValueRef → World → Prop
  | call {ctx ctx' : Context} {request : Request} {form : ConstantForm} {view : ValueView}
      {v : ValueRef} (found : w.contexts[k]? = some ctx)
      (known : ∀ h ∈ request.handles, h ∈ w.handles) (describes : request.Describes ctx form)
      (run : (request.run ctx).result = .ok ([.value view v], ctx')) :
      ConstantCall w k form v
        { contexts := w.contexts.set k ctx', handles := w.handles ++ [.value view v] }

variable {w w' w₁ w₂ w₃ : World} {k : Nat} {ctx : Context} {form form' : ConstantForm}
  {v v' : ValueRef}

theorem ConstantCall.step (call : w.ConstantCall k form v w') : w.Step w' := by
  cases call with
  | call found known _ run => exact .request found known run

theorem ConstantCall.answered (call : w.ConstantCall k form v w') (reachable : w.Reachable) :
    ∃ ctx' r key, w'.contexts[k]? = some ctx' ∧ ctx'.value v = .ok r ∧ r.kind.key? = some key ∧
      key.form = form := by
  cases call with
  | @call ctx ctx' request _ view _ found known describes run =>
    have sound := reachable.sound
    have mem : ctx ∈ w.contexts := List.mem_of_getElem? found
    obtain ⟨_, _, r, key, same, read, content, rfl⟩ := Request.constant_of_run
      (sound.wellFormed ctx mem) (sound.admits_known mem known) describes run
    obtain ⟨_, rfl⟩ := Handle.value.inj (List.cons.inj same).1
    have inside : k < w.contexts.length := (List.getElem?_eq_some_iff.mp found).1
    exact ⟨ctx', r, key, List.getElem?_set_self inside, read, content, rfl⟩

theorem constants_of_steps (reachable : w.Reachable) (steps : Relation.ReflTransGen Step w w')
    (found : w.contexts[k]? = some ctx) :
    w'.Reachable ∧ ∃ ctx', w'.contexts[k]? = some ctx' ∧ ctx.ConstantsLast ctx' := by
  refine relates_of_steps (fun reachable mem known run => ?_) reachable steps found
  have sound := reachable.sound
  exact Request.constantsLast (sound.wellFormed _ mem) (sound.admits_known mem known) run

theorem ConstantCall.eq_iff (reachable : w.Reachable) (call : w.ConstantCall k form v w₁)
    (steps : Relation.ReflTransGen Step w₁ w₂) (call' : w₂.ConstantCall k form' v' w₃) :
    v = v' ↔ form = form' := by
  have reachable₁ := reachable.step call.step
  obtain ⟨ctx₁, r, key, found₁, read, content, rfl⟩ := call.answered reachable
  obtain ⟨reachable₂, _⟩ := constants_of_steps reachable₁ steps found₁
  obtain ⟨reachable₃, ctx₃, found₃, last⟩ :=
    constants_of_steps reachable₁ (steps.tail call'.step) found₁
  obtain ⟨_, r', key', found₃', read', content', rfl⟩ := call'.answered reachable₂
  obtain rfl := Option.some.inj (found₃.symm.trans found₃')
  have mem₃ := List.mem_of_getElem? found₃
  have wf := reachable₃.sound.wellFormed ctx₃ mem₃
  rcases last.constants v r key read content with
    ⟨r'', read'', content''⟩ | ⟨base, indices, inBounds, rfl, gone, baseGone⟩
  · constructor
    · rintro rfl
      obtain rfl := Checked.unique read' read''
      rw [Option.some.inj (content'.symm.trans content'')]
    · intro same
      obtain rfl := ConstantKey.form_inj
        ((reachable₃.allWellMade ctx₃ mem₃).canonical read'' content'')
        ((reachable₃.allWellMade ctx₃ mem₃).canonical read' content') same
      exact eq_of_key wf (reachable₃.distinct ctx₃ mem₃) read'' read' content'' content'
  · constructor
    · rintro rfl
      exact absurd ⟨r', read'⟩ gone.not_lives
    · intro same
      have suits := ((reachable₃.allWellMade ctx₃ mem₃) v' r' read').1
      have stored := storedIn_of_key suits content'
      cases key' with
      | elementPtr =>
        obtain ⟨rfl, _⟩ := ConstantForm.elementPtr.inj same
        obtain ⟨_, br, _, _, _, alive, _⟩ := stored
        exact absurd ⟨br, alive⟩ baseGone.not_lives
      | _ => cases same

/-- Constants are uniqued over whole runs, erasures among them. The table holds live constants only,
each under its content and with the type that this content determines, and every live one; it finds
what it holds. A constant factory answers a live constant of the form asked for, and of two calls, with
any operations between, the handles are the same exactly when the same constant is described. -/
theorem constants_unique_over_runs (reachable : w.Reachable) (found : w.contexts[k]? = some ctx) :
    (∀ key v, (key, v) ∈ ctx.constantTable.entries →
      ∃ r, ctx.value v = .ok r ∧ key.StoredIn ctx r) ∧
    (∀ v r key, ctx.value v = .ok r → r.kind.key? = some key →
      (key, v) ∈ ctx.constantTable.entries) ∧
    (∀ key v, ctx.constantTable.find? key = some v ↔ (key, v) ∈ ctx.constantTable.entries) ∧
    (∀ form v w₁, w.ConstantCall k form v w₁ → ∃ ctx₁ r key, w₁.contexts[k]? = some ctx₁ ∧
      ctx₁.value v = .ok r ∧ r.kind.key? = some key ∧ key.form = form) ∧
    ∀ form form' v v' w₁ w₂ w₃, w.ConstantCall k form v w₁ → Relation.ReflTransGen Step w₁ w₂ →
      w₂.ConstantCall k form' v' w₃ → (v = v' ↔ form = form') := by
  have mem := List.mem_of_getElem? found
  have wf := reachable.sound.wellFormed ctx mem
  refine ⟨fun key v entry => ?_, wf.tabled,
    fun key v => Table.find?_eq_some_iff (reachable.distinct ctx mem),
    fun form v w₁ call => call.answered reachable,
    fun form form' v v' w₁ w₂ w₃ call steps call' => call.eq_iff reachable steps call'⟩
  obtain ⟨r, read, content⟩ := wf.constants key v entry
  exact ⟨r, read, storedIn_of_key (reachable.allWellMade ctx mem v r read).1 content⟩

/-- A request of a script is a call of a constant factory if it describes a constant. -/
theorem ConstantCall.of_perform (reachable : w.Reachable) {request : Request}
    (done : w.perform (.request k request) = some w') (found : w.contexts[k]? = some ctx)
    (describes : request.Describes ctx form) : ∃ v, w.ConstantCall k form v w' := by
  have sound := reachable.sound
  have mem : ctx ∈ w.contexts := List.mem_of_getElem? found
  obtain ⟨_, answers, ctx', found', known, run, rfl⟩ := request_of_perform done
  obtain rfl := Option.some.inj (found.symm.trans found')
  obtain ⟨view, v, _, _, rfl, _⟩ := Request.constant_of_run
    (sound.wellFormed ctx mem) (sound.admits_known mem known) describes run
  exact ⟨v, .call found known describes run⟩

/-- A byte type, and a module with a string, which is erased after a call for a byte. -/
def erasedString (more : List Action) : World := after ([.context, .request 0 (.integerType 8),
  .request 0 (.createModule "m"), .request 0 (.globalString ⟨⟨1⟩, 0⟩ "ab" "s")] ++ more)

/-- The signed byte -1 and the byte 255 are one constant. -/
theorem erasedString_byte : ∃ w₁ w₂ w₃ v v',
    (erasedString []).ConstantCall 0 (.int 8 255) v w₁ ∧ w₁.Step w₂ ∧
      w₂.ConstantCall 0 (.int 8 255) v' w₃ ∧ v = v' := by
  let signed : Action := .request 0 (.constantSigned ⟨⟨⟨1⟩, 0⟩⟩ (-1))
  let erase : Action := .request 0 (.eraseModule ⟨⟨1⟩, 0⟩)
  let read : Action := .request 0 (.constantInt (.ofUInt64 8 255) (.unsigned rfl 255))
  have first : (erasedString []).perform signed = some (erasedString [signed]) := by decide +kernel
  have erased : (erasedString [signed]).perform erase = some (erasedString [signed, erase]) := by
    decide +kernel
  have again : (erasedString [signed, erase]).perform read =
      some (erasedString [signed, erase, read]) := by decide +kernel
  have reachable : (erasedString []).Reachable := reachable_after (by decide +kernel)
  have between := step_of_perform erased
  have reachable₂ := (reachable.step (step_of_perform first)).step between
  have computed : ((erasedString []).contexts[0]?).any (fun ctx : Context =>
      ctx.shape ⟨⟨1⟩, 0⟩ = .ok (.integer 8)) = true := by decide +kernel
  obtain ⟨ctx, found, computed⟩ := (Option.any_eq_true _ _).mp computed
  have computed₂ : ((erasedString [signed, erase]).contexts[0]?).isSome = true := by decide +kernel
  obtain ⟨ctx₂, found₂⟩ := Option.isSome_iff_exists.mp computed₂
  have minus : (-1 : Int64).toInt % 2 ^ 8 = 255 := by decide
  have byte : ((WideInt.ofUInt64 8 255).toNat : Int) = 255 := by decide
  obtain ⟨v, called⟩ := ConstantCall.of_perform reachable first found
    (.signed (of_decide_eq_true computed))
  obtain ⟨v', called'⟩ := ConstantCall.of_perform reachable₂ again found₂ .int
  rw [minus] at called
  rw [byte] at called'
  have unique := (constants_unique_over_runs reachable found).2.2.2.2
  exact ⟨_, _, _, v, v', called, between, called',
    (unique _ _ v v' _ _ _ called (.single between) called').mpr rfl⟩

end World
end ModuleIR
