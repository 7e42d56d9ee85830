import Mathlib.Logic.Function.Basic
import ModuleIR.Proofs.World.Reachable

set_option autoImplicit false

/-!
# Sessions of two users

Two users share a context and take turns in it. What a user does is written without the handles that
he will get: each gets a number when he gets it, and a command refers to handles by their numbers. So
one and the same list of commands can be carried out by a user alone in a context of his own, and in
between the commands of the other user. A user knows only the handles that his own commands gave him.
-/
namespace ModuleIR

/-! ### Handles by their numbers -/

namespace Handle

def type? (view : TypeView) : Handle → Option TypeRef
  | type view' t => if view' = view then some t else none
  | _ => none

def value? (view : ValueView) : Handle → Option ValueRef
  | value view' v => if view' = view then some v else none
  | _ => none

def block? : Handle → Option BlockRef
  | block b => some b
  | _ => none

def module? : Handle → Option ModuleRef
  | module m => some m
  | _ => none

end Handle

def typeAt (known : List Handle) (view : TypeView) (k : Nat) : Option TypeRef :=
  known[k]?.bind (·.type? view)

def valueAt (known : List Handle) (view : ValueView) (k : Nat) : Option ValueRef :=
  known[k]?.bind (·.value? view)

def constantAt (known : List Handle) (k : Nat) : Option ConstantRef :=
  (valueAt known .constant k).map .mk

def globalAt (known : List Handle) (k : Nat) : Option GlobalRef :=
  (valueAt known .global k).map .mk

def functionAt (known : List Handle) (k : Nat) : Option FunctionRef :=
  (valueAt known .function k).map .mk

def blockAt (known : List Handle) (k : Nat) : Option BlockRef := known[k]?.bind (·.block?)

def moduleAt (known : List Handle) (k : Nat) : Option ModuleRef := known[k]?.bind (·.module?)

namespace Request

/-- A request that is written with numbers, made with the handles of these numbers. A number is written
as a place of an arena, whichever the context. -/
def resolve (known : List Handle) : Request → Option Request
  | voidType => some voidType
  | labelType => some labelType
  | integerType bits => some (integerType bits)
  | pointerType pointee space => do
    return pointerType (← typeAt known .any pointee.index) space
  | arrayType element length => do
    return arrayType (← typeAt known .any element.index) length
  | functionType result params variadic => do
    return functionType (← typeAt known .any result.index)
      (← params.mapM fun t => typeAt known .any t.index) variadic
  | constantInt value built => some (constantInt value built)
  | constantSigned type value => do
    return constantSigned ⟨← typeAt known .integer type.type.index⟩ value
  | constantBool value => some (constantBool value)
  | constantString text addNull => some (constantString text addNull)
  | elementPtr base indices inBounds => do
    return elementPtr (← constantAt known base.value.index)
      (← indices.mapM fun c => constantAt known c.value.index) inBounds
  | createModule name => some (createModule name)
  | eraseModule m => do return eraseModule (← moduleAt known m.index)
  | createGlobal m spec => do
    return createGlobal (← moduleAt known m.index) { spec with
      type := ← typeAt known .any spec.type.index
      initializer := ← spec.initializer.mapM fun c => constantAt known c.value.index
      before := ← spec.before.mapM fun g => globalAt known g.value.index }
  | setInitializer g initializer => do
    return setInitializer (← globalAt known g.value.index)
      (← initializer.mapM fun c => constantAt known c.value.index)
  | setGlobalLinkage g linkage => do
    return setGlobalLinkage (← globalAt known g.value.index) linkage
  | globalString m text name => do return globalString (← moduleAt known m.index) text name
  | createFunction signature linkage name m => do
    return createFunction ⟨← typeAt known .function signature.type.index⟩ linkage name
      (← moduleAt known m.index)
  | setFunctionLinkage f linkage => do
    return setFunctionLinkage (← functionAt known f.value.index) linkage
  | setFunctionConvention f convention => do
    return setFunctionConvention (← functionAt known f.value.index) convention
  | setValueName v name => do return setValueName (← valueAt known .any v.index) name
  | setBlockName b name => do return setBlockName (← blockAt known b.index) name
  | createBlock name parent before => do
    return createBlock name (← parent.mapM fun f => functionAt known f.value.index)
      (← before.mapM fun b => blockAt known b.index)
  | insertBlock b f before => do
    return insertBlock (← blockAt known b.index) (← functionAt known f.value.index)
      (← before.mapM fun b => blockAt known b.index)
  | createCall callee args name b => do
    return createCall (← valueAt known .any callee.index)
      (← args.mapM fun v => valueAt known .any v.index) name (← blockAt known b.index)
  | createReturn value b => do
    return createReturn (← value.mapM fun v => valueAt known .any v.index)
      (← blockAt known b.index)
  | createBranch target b => do
    return createBranch (← blockAt known target.index) (← blockAt known b.index)
  | createCondBranch cond ifTrue ifFalse b => do
    return createCondBranch (← valueAt known .any cond.index) (← blockAt known ifTrue.index)
      (← blockAt known ifFalse.index) (← blockAt known b.index)
  | setCallConvention c convention => do
    return setCallConvention ⟨← valueAt known .call c.value.index⟩ convention

end Request

/-! ### Accessors -/

/-- What can be asked of a handle without changing the context. -/
inductive Accessor where
  | typeView (view : TypeView)
  | innerType (k : Nat)
  | valueView (view : ValueView)
  | valueType
  /-- One of the handles in the record. -/
  | content (k : Nat)
  | calledType
  | findFunction (name : String)
  | findGlobal (name : String)

namespace Accessor

def get (ctx : Context) : Accessor → Handle → Checked (Option Handle)
  | typeView view, .type _ t => do
    if view = .any then return some (.type .any t)
    return if view.accepts (← ctx.shape t) then some (.type view t) else none
  | innerType k, .type _ t => do return (← ctx.shape t).inner[k]?.map (.type .any)
  | valueView view, .value known v => do
    if view ∈ known.parents then return some (.value view v)
    return if view.accepts (← ctx.value v).kind then some (.value view v) else none
  | valueType, .value known v => do
    return some (.type (if known = .constantInt then .integer else .any) (← ctx.value v).type)
  | content k, .value _ v => do return (← ctx.value v).kind.handles[k]?
  | content k, .block b => do return (← ctx.block b).handles[k]?
  | content k, .module m => do return (← ctx.module m).handles[k]?
  | calledType, .value .call v => do
    match ← ctx.operation ⟨v⟩ with
    | .call callee _ _ => return some (.type .function (← ctx.callSignature callee).type)
    | _ => return none
  | findFunction name, .module m => do
    return (← ctx.findFunction? m name).map (.value .function ·.value)
  | findGlobal name, .module m => do
    return (← ctx.findGlobal? m name).map (.value .global ·.value)
  | _, _ => return none

end Accessor

/-! ### Sessions -/

inductive User where
  | first
  | second
  deriving DecidableEq

/-- What a user does: an operation, or an accessor of the handle with a number. -/
inductive Command where
  | request (request : Request)
  | access (k : Nat) (accessor : Accessor)

/-- Carries out a command with the handles that its user knows. It gives handles, unless it names a
handle that the user does not have, or ends in a violation. -/
def Command.run (known : List Handle) (ctx : Context) : Command → Option (List Handle × Context)
  | .request numbered => do ((← numbered.resolve known).run ctx).result.toOption
  | .access k accessor => do
    let found ← (accessor.get ctx (← known[k]?)).toOption
    return (found.toList, ctx)

/-- A context in use, with the handles that each user got. -/
structure Session where
  context : Context
  handles : User → List Handle

namespace Session

def start (others : Nat) : Session := ⟨.new ⟨others + 1⟩, fun _ => []⟩

def turn (s : Session) (user : User) (command : Command) : Option Session := do
  let (answers, context) ← command.run (s.handles user) s.context
  return ⟨context, Function.update s.handles user (s.handles user ++ answers)⟩

/-- The commands of a script, each of one of the users; no result when one of them fails. -/
def play : List (User × Command) → Session → Option Session
  | [], s => some s
  | (user, command) :: rest, s => do play rest (← s.turn user command)

end Session

/-! ### Sessions are runs -/

namespace Handle

variable {h : Handle}

theorem type?_eq_some {view : TypeView} {t : TypeRef} : h.type? view = some t ↔ h = .type view t := by
  cases h <;> grind [type?]

theorem value?_eq_some {view : ValueView} {v : ValueRef} :
    h.value? view = some v ↔ h = .value view v := by
  cases h <;> grind [value?]

theorem block?_eq_some {b : BlockRef} : h.block? = some b ↔ h = .block b := by
  cases h <;> simp [block?]

theorem module?_eq_some {m : ModuleRef} : h.module? = some m ↔ h = .module m := by
  cases h <;> simp [module?]

end Handle

section Known

variable {known : List Handle} {k : Nat}

theorem mem_of_pick {α : Type} {kind : Handle → Option α} {a : α}
    (found : known[k]?.bind kind = some a) : ∃ h ∈ known, kind h = some a := by
  obtain ⟨h, stored, same⟩ := Option.bind_eq_some_iff.mp found
  exact ⟨h, List.mem_of_getElem? stored, same⟩

theorem typeAt_mem {view : TypeView} {t : TypeRef} (found : typeAt known view k = some t) :
    .type view t ∈ known := by
  obtain ⟨h, mem, same⟩ := mem_of_pick found
  exact Handle.type?_eq_some.mp same ▸ mem

theorem valueAt_mem {view : ValueView} {v : ValueRef} (found : valueAt known view k = some v) :
    .value view v ∈ known := by
  obtain ⟨h, mem, same⟩ := mem_of_pick found
  exact Handle.value?_eq_some.mp same ▸ mem

theorem blockAt_mem {b : BlockRef} (found : blockAt known k = some b) : .block b ∈ known := by
  obtain ⟨h, mem, same⟩ := mem_of_pick found
  exact Handle.block?_eq_some.mp same ▸ mem

theorem moduleAt_mem {m : ModuleRef} (found : moduleAt known k = some m) : .module m ∈ known := by
  obtain ⟨h, mem, same⟩ := mem_of_pick found
  exact Handle.module?_eq_some.mp same ▸ mem

theorem constantAt_mem {c : ConstantRef} (found : constantAt known k = some c) :
    .value .constant c.value ∈ known := by
  obtain ⟨v, stored, rfl⟩ := Option.map_eq_some_iff.mp found
  exact valueAt_mem stored

theorem globalAt_mem {g : GlobalRef} (found : globalAt known k = some g) :
    .value .global g.value ∈ known := by
  obtain ⟨v, stored, rfl⟩ := Option.map_eq_some_iff.mp found
  exact valueAt_mem stored

theorem functionAt_mem {f : FunctionRef} (found : functionAt known k = some f) :
    .value .function f.value ∈ known := by
  obtain ⟨v, stored, rfl⟩ := Option.map_eq_some_iff.mp found
  exact valueAt_mem stored

end Known

/-! What is put together of parts that are looked up. -/
section Parts

variable {α β : Type} {P : β → Prop}

theorem parts_bind {x : Option α} {f : α → Option β}
    (next : ∀ a, x = some a → ∀ b, f a = some b → P b) : ∀ b, x >>= f = some b → P b := by
  intro b found
  obtain ⟨a, first, rest⟩ := Option.bind_eq_some_iff.mp found
  exact next a first b rest

theorem parts_pure {b : β} (h : P b) : ∀ c, (pure b : Option β) = some c → P c := by
  rintro _ ⟨⟩
  exact h

theorem parts_list {f : α → Option β} (each : ∀ a b, f a = some b → P b) {as : List α} :
    ∀ bs, as.mapM f = some bs → ∀ b ∈ bs, P b := by
  induction as with
  | nil => exact parts_pure (by simp)
  | cons a as ih =>
    rw [List.mapM_cons]
    refine parts_bind fun b first => parts_bind fun bs rest => parts_pure ?_
    exact List.forall_mem_cons.mpr ⟨each a b first, ih bs rest⟩

theorem parts_option {f : α → Option β} (each : ∀ a b, f a = some b → P b) {o : Option α} :
    ∀ o', o.mapM f = some o' → ∀ b ∈ o', P b := by
  cases o with
  | none => exact parts_pure (by simp)
  | some a =>
    intro o' made
    obtain ⟨b, first, rfl⟩ := Option.map_eq_some_iff.mp made
    simpa using each a b first

end Parts

theorem Request.resolve_known {known : List Handle} {numbered : Request} :
    ∀ request, numbered.resolve known = some request → ∀ h ∈ request.handles, h ∈ known := by
  cases numbered with
  | voidType | labelType | integerType | constantInt | constantBool | constantString
  | createModule => exact parts_pure (by simp [handles])
  | pointerType | arrayType =>
    exact parts_bind fun t type => parts_pure (by simp [handles, typeAt_mem type])
  | functionType =>
    refine parts_bind fun t result => parts_bind fun ts params => parts_pure ?_
    simpa [handles, typeAt_mem result] using parts_list (fun _ _ => typeAt_mem) ts params
  | constantSigned =>
    exact parts_bind fun t type => parts_pure (by simp [handles, typeAt_mem type])
  | elementPtr =>
    refine parts_bind fun k base => parts_bind fun ks indices => parts_pure ?_
    simpa [handles, constantAt_mem base] using parts_list (fun _ _ => constantAt_mem) ks indices
  | eraseModule | globalString =>
    exact parts_bind fun m module => parts_pure (by simp [handles, moduleAt_mem module])
  | createGlobal =>
    refine parts_bind fun m module => parts_bind fun t type => parts_bind fun init initializer =>
      parts_bind fun sibling before => parts_pure ?_
    have inits := parts_option (fun _ _ => constantAt_mem) init initializer
    have siblings := parts_option (fun _ _ => globalAt_mem) sibling before
    simp only [handles, List.mem_append, List.mem_cons, List.mem_map, Option.mem_toList]
    rintro h ((rfl | rfl | ⟨c, given, rfl⟩) | ⟨g, given, rfl⟩)
    · exact moduleAt_mem module
    · exact typeAt_mem type
    · exact inits c given
    · exact siblings g given
  | setInitializer =>
    refine parts_bind fun g global => parts_bind fun init initializer => parts_pure ?_
    simpa [handles, globalAt_mem global] using
      parts_option (fun _ _ => constantAt_mem) init initializer
  | setGlobalLinkage =>
    exact parts_bind fun g global => parts_pure (by simp [handles, globalAt_mem global])
  | createFunction =>
    exact parts_bind fun t signature => parts_bind fun m module =>
      parts_pure (by simp [handles, typeAt_mem signature, moduleAt_mem module])
  | setFunctionLinkage | setFunctionConvention =>
    exact parts_bind fun f function => parts_pure (by simp [handles, functionAt_mem function])
  | setValueName =>
    exact parts_bind fun v value => parts_pure (by simp [handles, valueAt_mem value])
  | setBlockName =>
    exact parts_bind fun b block => parts_pure (by simp [handles, blockAt_mem block])
  | createBlock =>
    refine parts_bind fun f parent => parts_bind fun b before => parts_pure ?_
    have functions := parts_option (fun _ _ => functionAt_mem) f parent
    have blocks := parts_option (fun _ _ => blockAt_mem) b before
    simp only [handles, List.mem_append, List.mem_map, Option.mem_toList]
    rintro h (⟨f, given, rfl⟩ | ⟨b, given, rfl⟩)
    · exact functions f given
    · exact blocks b given
  | insertBlock =>
    refine parts_bind fun b block => parts_bind fun f function => parts_bind fun d before =>
      parts_pure ?_
    simpa [handles, blockAt_mem block, functionAt_mem function] using
      parts_option (fun _ _ => blockAt_mem) d before
  | createCall =>
    refine parts_bind fun v callee => parts_bind fun vs args => parts_bind fun b block =>
      parts_pure ?_
    simpa [handles, valueAt_mem callee, blockAt_mem block] using
      parts_list (fun _ _ => valueAt_mem) vs args
  | createReturn =>
    refine parts_bind fun v value => parts_bind fun b block => parts_pure ?_
    simpa [handles, blockAt_mem block] using parts_option (fun _ _ => valueAt_mem) v value
  | createBranch =>
    exact parts_bind fun a target => parts_bind fun b block =>
      parts_pure (by simp [handles, blockAt_mem target, blockAt_mem block])
  | createCondBranch =>
    exact parts_bind fun v cond => parts_bind fun a ifTrue => parts_bind fun d ifFalse =>
      parts_bind fun b block => parts_pure (by
        simp [handles, valueAt_mem cond, blockAt_mem ifTrue, blockAt_mem ifFalse, blockAt_mem block])
  | setCallConvention =>
    exact parts_bind fun c call => parts_pure (by simp [handles, valueAt_mem call])

theorem Accessor.get_yields {ctx : Context} {accessor : Accessor} {h h' : Handle}
    (got : accessor.get ctx h = .ok (some h')) : ctx.Yields h h' := by
  unfold get at got
  split at got
  · rename_i view known t
    split at got
    · rename_i any
      obtain rfl := Option.some.inj (Except.ok.inj got)
      exact .typeUpcast
    · obtain ⟨shape, read, found⟩ := Checked.bind_eq_ok.mp got
      split at found
      · rename_i accepted
        obtain rfl := Option.some.inj (Except.ok.inj found)
        exact .typeView read accepted
      · cases found
  · obtain ⟨shape, read, found⟩ := Checked.bind_eq_ok.mp got
    obtain ⟨inner, stored, rfl⟩ := Option.map_eq_some_iff.mp (Except.ok.inj found)
    exact .innerType read (List.mem_of_getElem? stored)
  · rename_i view known v
    split at got
    · rename_i parent
      obtain rfl := Option.some.inj (Except.ok.inj got)
      exact .valueUpcast parent
    · obtain ⟨r, read, found⟩ := Checked.bind_eq_ok.mp got
      split at found
      · rename_i accepted
        obtain rfl := Option.some.inj (Except.ok.inj found)
        exact .valueView read accepted
      · cases found
  · rename_i known v
    obtain ⟨r, read, found⟩ := Checked.bind_eq_ok.mp got
    obtain rfl := Option.some.inj (Except.ok.inj found)
    split
    · rename_i int
      subst int
      exact .integerType read
    · exact .valueType read
  · obtain ⟨r, read, found⟩ := Checked.bind_eq_ok.mp got
    exact .content read (List.mem_of_getElem? (Except.ok.inj found))
  · obtain ⟨r, read, found⟩ := Checked.bind_eq_ok.mp got
    exact .blockContent read (List.mem_of_getElem? (Except.ok.inj found))
  · obtain ⟨r, read, found⟩ := Checked.bind_eq_ok.mp got
    exact .moduleContent read (List.mem_of_getElem? (Except.ok.inj found))
  · rename_i v
    obtain ⟨o, read, found⟩ := Checked.bind_eq_ok.mp got
    split at found
    · obtain ⟨signature, called, same⟩ := Checked.bind_eq_ok.mp found
      obtain rfl := Option.some.inj (Except.ok.inj same)
      exact .calledType (c := ⟨v⟩) read called
    · cases found
  · obtain ⟨f?, found, same⟩ := Checked.bind_eq_ok.mp got
    obtain ⟨f, rfl, rfl⟩ := Option.map_eq_some_iff.mp (Except.ok.inj same)
    exact .findFunction found
  · obtain ⟨g?, found, same⟩ := Checked.bind_eq_ok.mp got
    obtain ⟨g, rfl, rfl⟩ := Option.map_eq_some_iff.mp (Except.ok.inj same)
    exact .findGlobal found
  · cases got

namespace Session

/-- The context of a session is one of a run, and its users have handles of that run. -/
def Sound (s : Session) : Prop :=
  ∃ w : World, w.Reachable ∧ ∃ k : Nat, w.contexts[k]? = some s.context ∧
    ∀ user, ∀ h ∈ s.handles user, h ∈ w.handles

theorem start_sound (others : Nat) : (start others).Sound := by
  have made (n : Nat) : ∃ w : World, w.Reachable ∧ w.contexts.length = n := by
    induction n with
    | zero => exact ⟨{}, .empty, rfl⟩
    | succ n ih =>
      obtain ⟨w, reachable, length⟩ := ih
      exact ⟨_, reachable.step .context, by simp [length]⟩
  obtain ⟨w, reachable, length⟩ := made others
  refine ⟨_, reachable.step .context, others, ?_, fun _ _ none => nomatch none⟩
  subst length
  exact List.getElem?_concat_length

theorem turn_sound {s s' : Session} {user : User} {command : Command} (sound : s.Sound)
    (done : s.turn user command = some s') : s'.Sound := by
  obtain ⟨w, reachable, k, found, known⟩ := sound
  obtain ⟨⟨answers, ctx'⟩, ran, same⟩ := Option.bind_eq_some_iff.mp done
  obtain rfl := Option.some.inj same
  have inside : k < w.contexts.length := (List.getElem?_eq_some_iff.mp found).1
  have handles (u : User) (h : Handle)
      (mem : h ∈ Function.update s.handles user (s.handles user ++ answers) u) :
      h ∈ w.handles ++ answers := by
    rw [Function.update_apply] at mem
    split at mem
    · exact (List.mem_append.mp mem).elim (fun old => List.mem_append_left _ (known user h old))
        (List.mem_append_right _)
    · exact List.mem_append_left _ (known u h mem)
  cases command with
  | request numbered =>
    obtain ⟨request, resolved, run⟩ := Option.bind_eq_some_iff.mp ran
    have run : (request.run s.context).result = .ok (answers, ctx') :=
      Checked.toOption_eq_some.mp run
    have given : ∀ h ∈ request.handles, h ∈ w.handles := fun h mem =>
      known user h (Request.resolve_known request resolved h mem)
    exact ⟨_, reachable.step (.request found given run), k, List.getElem?_set_self inside, handles⟩
  | access n accessor =>
    obtain ⟨h, stored, rest⟩ := Option.bind_eq_some_iff.mp ran
    obtain ⟨got, read, same⟩ := Option.bind_eq_some_iff.mp rest
    obtain ⟨rfl, rfl⟩ := Prod.mk.inj (Option.some.inj same)
    have read : accessor.get s.context h = .ok got := Checked.toOption_eq_some.mp read
    cases got with
    | none => exact ⟨w, reachable, k, found, fun u h mem => by simpa using handles u h mem⟩
    | some h' =>
      have mem := known user h (List.mem_of_getElem? stored)
      exact ⟨_, reachable.step (.access found mem (Accessor.get_yields read)), k, found, handles⟩

end Session
end ModuleIR
