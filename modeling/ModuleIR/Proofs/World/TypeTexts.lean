import ModuleIR.Proofs.Arena.TypeTrees
import ModuleIR.Proofs.Listing.Lines
import ModuleIR.Proofs.Listing.TypeTexts
import ModuleIR.Proofs.World.WellTyped

set_option autoImplicit false

/-!
# What the texts of types tell

The text of a type is written behind the types inside it and without brackets around them; still two
types of a context have one text only if they are the same type.

A call is printed with the type of its result, or of its callee if that is variadic, and nothing tells
which of the two it is. Among the calls of one sort the text tells the result. Calls of both sorts are
printed alike where one returns what the other calls, and so return different types.
-/
namespace ModuleIR

namespace Context

/-- A call whose callee has the type and the signature, and the type text it is printed with. -/
def CalledAs (ctx : Context) (i : InstructionRef) (calleeType result : TypeRef) (variadic : Bool)
    (text : String) : Prop :=
  ∃ type callee args convention signature params, ctx.valueType i.value = .ok type ∧
    ctx.operation i = .ok (.call callee args convention) ∧ ctx.valueType callee = .ok calleeType ∧
    ctx.calleeSignature? callee = .ok (some signature) ∧
    ctx.signature signature = .ok (result, params, variadic) ∧
    Listing.calledTypeText ctx callee type = .ok text

variable {ctx : Context}

theorem WellFormed.index_lt_of_mem_inner (wf : ctx.WellFormed) {t u : TypeRef} {s : Shape}
    (read : ctx.shape t = .ok s) (mem : u ∈ s.inner) : u.index < t.index :=
  (wf.inner _ s (shape_eq_ok.mp read).2 u mem).2

section Calls

variable {i i' : InstructionRef} {calleeType calleeType' result result' : TypeRef}
  {variadic variadic' : Bool} {text text' : String}

theorem CalledAs.pointer (called : ctx.CalledAs i calleeType result variadic text) :
    ∃ signature params space, ctx.shape calleeType = .ok (.pointer signature space) ∧
      ctx.shape signature = .ok (.function result params variadic) := by
  obtain ⟨_, callee, _, _, signature, params, _, _, typed, points, signed, _⟩ := called
  obtain ⟨r, space, _, _, _, read, pointed, _⟩ := calleeSignature?_eq_some.mp points
  obtain ⟨r', again, rfl⟩ := valueType_eq_ok.mp typed
  obtain rfl := Checked.unique read again
  exact ⟨signature.type, params, space, pointed, signature_eq_ok.mp signed⟩

theorem CalledAs.hasTypes (wf : ctx.WellFormed)
    (called : ctx.CalledAs i calleeType result variadic text) :
    ctx.HasType calleeType ∧ ctx.HasType result := by
  obtain ⟨_, _, _, pointed, signed⟩ := called.pointer
  exact ⟨⟨_, pointed⟩, wf.hasType_inner signed List.mem_cons_self⟩

/-- The type of a callee stands behind that of the result in the arena. -/
theorem CalledAs.result_ne (wf : ctx.WellFormed)
    (called : ctx.CalledAs i calleeType result variadic text) : result ≠ calleeType := by
  obtain ⟨signature, _, _, pointed, signed⟩ := called.pointer
  have inside : result.index < signature.index :=
    wf.index_lt_of_mem_inner signed List.mem_cons_self
  have behind : signature.index < calleeType.index :=
    wf.index_lt_of_mem_inner pointed List.mem_cons_self
  rintro rfl
  exact Nat.lt_asymm inside behind

theorem signature_of_call (typed : ctx.EachInstruction OperationTyped) {type : TypeRef}
    {callee : ValueRef} {args : List ValueRef} {convention : CallingConv}
    (has : ctx.valueType i.value = .ok type)
    (made : ctx.operation i = .ok (.call callee args convention))
    (held : ctx.valueType callee = .ok calleeType) :
    ∃ signature params variadic, ctx.calleeSignature? callee = .ok (some signature) ∧
      ctx.signature signature = .ok (type, params, variadic) := by
  obtain ⟨r, read, rfl⟩ := valueType_eq_ok.mp has
  obtain ⟨⟨b, _⟩, known, rfl⟩ := operation_eq_ok.mp made
  obtain ⟨r', again, kind⟩ := instruction_eq_ok.mp known
  obtain rfl := Checked.unique read again
  obtain ⟨_, signature, space, params, variadic, fits⟩ := typed _ r _ read kind
  obtain ⟨cr, alive, _⟩ := valueType_eq_ok.mp held
  obtain ⟨_, cr', stored, rfl⟩ := fits.callee
  obtain rfl : cr = cr' := Option.some.inj ((value_eq_ok.mp alive).2.1.symm.trans stored)
  have signed : ctx.signature ⟨signature⟩ = .ok (r.type, params, variadic) :=
    signature_eq_ok.mpr fits.signature
  exact ⟨⟨signature⟩, params, variadic,
    calleeSignature?_eq_some.mpr ⟨cr, space, _, params, variadic, alive, fits.pointer, signed⟩, signed⟩

theorem calledAs_of_printed (typed : ctx.EachInstruction OperationTyped) {type : TypeRef}
    {callee : ValueRef} {args : List ValueRef} {convention : CallingConv}
    (has : ctx.valueType i.value = .ok type)
    (made : ctx.operation i = .ok (.call callee args convention))
    (printed : Listing.calledTypeText ctx callee type = .ok text) :
    ∃ calleeType result variadic, ctx.CalledAs i calleeType result variadic text := by
  obtain ⟨_, points, _⟩ := Checked.bind_eq_ok.mp printed
  obtain ⟨calleeType, held, _⟩ := Checked.bind_eq_ok.mp points
  obtain ⟨signature, params, variadic, points, signed⟩ := signature_of_call typed has made held
  exact ⟨calleeType, type, variadic, type, callee, args, convention, signature, params, has, made,
    held, points, signed, printed⟩

theorem CalledAs.text_eq (typed : ctx.EachInstruction OperationTyped)
    (called : ctx.CalledAs i calleeType result variadic text) :
    text = ctx.typeText (if variadic then calleeType else result) := by
  obtain ⟨type, callee, _, _, signature, params, has, made, held, points, signed, printed⟩ := called
  obtain ⟨signature', _, _, points', signed'⟩ := signature_of_call typed has made held
  obtain rfl := Option.some.inj (Checked.unique points points')
  obtain rfl := (Prod.mk.inj (Checked.unique signed signed')).1
  simp only [Listing.calledTypeText, describeTypeOf, points, signed, held, Checked.ok_bind] at printed
  cases variadic <;> exact (typeText_of_describeType printed).symm

/-- Calls of one sort that are printed alike return the same type. -/
theorem CalledAs.result_eq (wf : ctx.WellFormed) (typed : ctx.EachInstruction OperationTyped)
    (called : ctx.CalledAs i calleeType result variadic text)
    (called' : ctx.CalledAs i' calleeType' result' variadic text) : result = result' := by
  have same := (called.text_eq typed).symm.trans (called'.text_eq typed)
  have has := called.hasTypes wf
  have has' := called'.hasTypes wf
  cases variadic with
  | false => exact wf.typeText_injective has.2 has'.2 same
  | true =>
    obtain rfl : calleeType = calleeType' := wf.typeText_injective has.1 has'.1 same
    obtain ⟨signature, _, _, pointed, signed⟩ := called.pointer
    obtain ⟨signature', _, _, pointed', signed'⟩ := called'.pointer
    obtain ⟨rfl, _⟩ := Shape.pointer.inj (Checked.unique pointed pointed')
    exact (Shape.function.inj (Checked.unique signed signed')).1

/-- A variadic call and another one are printed alike where the other returns what the first calls. -/
theorem CalledAs.text_eq_iff (wf : ctx.WellFormed) (typed : ctx.EachInstruction OperationTyped)
    (called : ctx.CalledAs i calleeType result true text)
    (called' : ctx.CalledAs i' calleeType' result' false text') :
    text = text' ↔ result' = calleeType := by
  rw [called.text_eq typed, called'.text_eq typed]
  refine ⟨fun same => ?_, fun same => by rw [same]; rfl⟩
  exact (wf.typeText_injective (called.hasTypes wf).1 (called'.hasTypes wf).2 same).symm

end Calls
end Context

open Context

namespace Listing

variable {ctx : Context}

/-- What stands in the line of a call, between the convention and the reference to the callee, is the
type that is printed of it. -/
theorem render_call {slots : Slots} {type : TypeRef} {callee : ValueRef} {args : List ValueRef}
    {convention : CallingConv} {line : String}
    (rendered : (operation ctx slots type (.call callee args convention)).render = .ok line) :
    ∃ text reference inside, calledTypeText ctx callee type = .ok text ∧
      (ref ctx slots callee).render = .ok reference ∧ line = "call " ++ conventionText convention ++
        text ++ " " ++ reference ++ "(" ++ inside ++ ")" := by
  obtain ⟨_, behind, rfl⟩ := render_text_eq_ok.mp rendered
  obtain ⟨text, printed, typed⟩ := render_reading_eq_ok.mp behind
  obtain ⟨_, _, opened, closing, rfl⟩ := render_append_eq_ok.mp typed
  obtain ⟨_, _, front, arguments, rfl⟩ := render_append_eq_ok.mp opened
  obtain ⟨reference, referred, rfl⟩ := render_text_eq_ok.mp front
  obtain ⟨inside, _, rfl⟩ := render_text_eq_ok.mp arguments
  obtain rfl := Except.ok.inj closing
  exact ⟨text, reference, inside, printed, referred, by simp [String.append_assoc]⟩

theorem render_instruction_call {slots : Slots} {i : InstructionRef} {callee : ValueRef}
    {args : List ValueRef} {convention : CallingConv} {line : String}
    (made : ctx.operation i = .ok (.call callee args convention))
    (rendered : (instruction ctx slots i).render = .ok line) :
    ∃ type definition text reference inside, ctx.valueType i.value = .ok type ∧
      (definition = "" ∨
        ∃ name, (ref ctx slots i.value).render = .ok name ∧ definition = name ++ " = ") ∧
      calledTypeText ctx callee type = .ok text ∧ (ref ctx slots callee).render = .ok reference ∧
      line = definition ++ "call " ++ conventionText convention ++ text ++ " " ++ reference ++ "(" ++
        inside ++ ")" := by
  obtain ⟨r, read, whole⟩ := render_reading_eq_ok.mp rendered
  obtain ⟨shape, shaped, parts⟩ := render_reading_eq_ok.mp whole
  obtain ⟨definition, _, front, back, rfl⟩ := render_append_eq_ok.mp parts
  rw [made] at back
  obtain ⟨text, reference, inside, printed, referred, rfl⟩ := render_call back
  refine ⟨r.type, definition, text, reference, inside, valueType_eq_ok.mpr ⟨r, read, rfl⟩, ?_,
    printed, referred, by simp [String.append_assoc]⟩
  split at front
  · exact .inl (Except.ok.inj front).symm
  · obtain ⟨name, _, named, mark, rfl⟩ := render_append_eq_ok.mp front
    exact .inr ⟨name, named, by rw [← Except.ok.inj mark]; rfl⟩

end Listing

namespace World

variable {w : World} {ctx : Context}

/-- Every type has a text, and types with one text are one type, also of those that are alike all the
way down. -/
theorem typeText_tells_type (reachable : w.Reachable) (mem : ctx ∈ w.contexts) :
    (∀ view t, Handle.type view t ∈ w.handles → t.ctx = ctx.id →
      ∃ text, ctx.describeType t = .ok text) ∧
    ∀ t t' text text', ctx.describeType t = .ok text → ctx.describeType t' = .ok text' →
      (text = text' ↔ t = t') ∧ (text = text' ↔ ctx.tree t = ctx.tree t') := by
  have sound := reachable.sound
  have wf := sound.wellFormed ctx mem
  constructor
  · intro view t known owner
    obtain ⟨shape, read, _⟩ := (sound.admits mem (sound.handles _ known)).type owner
    exact ⟨_, wf.describeType_eq ⟨shape, read⟩⟩
  · intro t t' text text' written written'
    obtain ⟨has, rfl⟩ := wf.describeType_eq_ok.mp written
    obtain ⟨has', rfl⟩ := wf.describeType_eq_ok.mp written'
    have one : ctx.typeText t = ctx.typeText t' ↔ t = t' :=
      ⟨wf.typeText_injective has has', fun same => by rw [same]⟩
    have tree : ctx.tree t = ctx.tree t' ↔ t = t' :=
      ⟨wf.tree_injective has t' has', fun same => by rw [same]⟩
    exact ⟨one, one.trans tree.symm⟩

/-- Pointers with an address space inside arrays, function types and other pointers. -/
def nestedTypes : World := after [.context, .request 0 (.integerType 8), .upcast (.type .any ⟨⟨1⟩, 0⟩),
  .request 0 (.pointerType ⟨⟨1⟩, 0⟩ .global), .upcast (.type .any ⟨⟨1⟩, 1⟩),
  .request 0 (.functionType ⟨⟨1⟩, 1⟩ [⟨⟨1⟩, 0⟩] true), .upcast (.type .any ⟨⟨1⟩, 2⟩),
  .request 0 (.pointerType ⟨⟨1⟩, 2⟩ .generic), .upcast (.type .any ⟨⟨1⟩, 3⟩),
  .request 0 (.arrayType ⟨⟨1⟩, 3⟩ 2), .request 0 (.functionType ⟨⟨1⟩, 3⟩ [⟨⟨1⟩, 1⟩, ⟨⟨1⟩, 3⟩] false)]

theorem nestedTypes_told_apart : ∃ ctx ∈ nestedTypes.contexts,
    ctx.describeType ⟨⟨1⟩, 4⟩ = .ok "[2 x i8 addrspace(1)* (i8, ...)*]" ∧
    ctx.describeType ⟨⟨1⟩, 5⟩ =
      .ok "i8 addrspace(1)* (i8, ...)* (i8 addrspace(1)*, i8 addrspace(1)* (i8, ...)*)" ∧
    ∀ t text, ctx.describeType t = .ok text →
      text = "[2 x i8 addrspace(1)* (i8, ...)*]" → t = ⟨⟨1⟩, 4⟩ := by
  have computed : (nestedTypes.contexts[0]?).any (fun ctx : Context =>
      ctx.describeType ⟨⟨1⟩, 4⟩ = .ok "[2 x i8 addrspace(1)* (i8, ...)*]" ∧
      ctx.describeType ⟨⟨1⟩, 5⟩ =
        .ok "i8 addrspace(1)* (i8, ...)* (i8 addrspace(1)*, i8 addrspace(1)* (i8, ...)*)") = true := by
    decide +kernel
  obtain ⟨ctx, found, computed⟩ := (Option.any_eq_true _ _).mp computed
  obtain ⟨array, function⟩ := of_decide_eq_true computed
  have mem := List.mem_of_getElem? found
  have told := (typeText_tells_type (reachable_after (by decide +kernel)) mem).2
  exact ⟨ctx, mem, array, function, fun t text written =>
    (told t ⟨⟨1⟩, 4⟩ text _ written array).1.mp⟩

/-- In the line of a call stands the type of its result, or of its callee when that is variadic. If
two callees are variadic, or neither is, calls that are printed with one type return one type. A
variadic call is printed like another one exactly if the callee of the other returns the type of
the variadic callee, and then what the two return is not the same. -/
theorem called_type_texts (reachable : w.Reachable) (mem : ctx ∈ w.contexts) :
    (∀ i callee args convention slots line,
      ctx.operation i = .ok (.call callee args convention) →
      (Listing.instruction ctx slots i).render = .ok line →
      ∃ calleeType result variadic text definition reference inside,
        ctx.CalledAs i calleeType result variadic text ∧
        text = ctx.typeText (if variadic then calleeType else result) ∧
        (definition = "" ∨ ∃ name, (Listing.ref ctx slots i.value).render = .ok name ∧
          definition = name ++ " = ") ∧
        (Listing.ref ctx slots callee).render = .ok reference ∧
        line = definition ++ "call " ++ Listing.conventionText convention ++ text ++ " " ++ reference ++
          "(" ++ inside ++ ")") ∧
    ∀ i i' calleeType calleeType' result result' variadic variadic' text text',
      ctx.CalledAs i calleeType result variadic text →
      ctx.CalledAs i' calleeType' result' variadic' text' →
      (variadic = variadic' → text = text' → result = result') ∧
      (variadic = true → variadic' = false →
        (text = text' ↔ result' = calleeType) ∧ (text = text' → result ≠ result')) := by
  have wf := reachable.sound.wellFormed ctx mem
  have typed := reachable.eachInstruction inherent_operationTyped ctx mem
  constructor
  · intro i callee args convention slots line made rendered
    obtain ⟨type, definition, text, reference, inside, has, defines, printed, referred, rfl⟩ :=
      Listing.render_instruction_call made rendered
    obtain ⟨calleeType, result, variadic, called⟩ := calledAs_of_printed typed has made printed
    exact ⟨calleeType, result, variadic, text, definition, reference, inside, called,
      called.text_eq typed, defines, referred, rfl⟩
  · intro i i' calleeType calleeType' result result' variadic variadic' text text' called called'
    constructor
    · rintro rfl rfl
      exact called.result_eq wf typed called'
    · rintro rfl rfl
      have alike := called.text_eq_iff wf typed called'
      exact ⟨alike, fun same => alike.mp same ▸ called.result_ne wf⟩

/-- A variadic function, and one that returns a pointer to functions of its type; both are called. -/
def alikeCalls : World := after [.context, .request 0 (.integerType 32), .upcast (.type .any ⟨⟨1⟩, 0⟩),
  .request 0 (.functionType ⟨⟨1⟩, 0⟩ [] true), .upcast (.type .any ⟨⟨1⟩, 1⟩),
  .request 0 (.pointerType ⟨⟨1⟩, 1⟩ .generic), .upcast (.type .any ⟨⟨1⟩, 2⟩),
  .request 0 (.functionType ⟨⟨1⟩, 2⟩ [] false), .request 0 (.createModule "m"),
  .request 0 (.createFunction ⟨⟨⟨1⟩, 1⟩⟩ .external "v" ⟨⟨1⟩, 0⟩),
  .request 0 (.createFunction ⟨⟨⟨1⟩, 3⟩⟩ .external "g" ⟨⟨1⟩, 0⟩),
  .request 0 (.createBlock "entry" (some ⟨⟨⟨1⟩, 1⟩⟩) none), .upcast (.value .any ⟨⟨1⟩, 0⟩),
  .upcast (.value .any ⟨⟨1⟩, 1⟩), .request 0 (.createCall ⟨⟨1⟩, 0⟩ [] "x" ⟨⟨1⟩, 0⟩),
  .request 0 (.createCall ⟨⟨1⟩, 1⟩ [] "y" ⟨⟨1⟩, 0⟩)]

theorem alikeCalls_called : ∃ ctx ∈ alikeCalls.contexts,
    ctx.CalledAs ⟨⟨⟨1⟩, 2⟩⟩ ⟨⟨1⟩, 2⟩ ⟨⟨1⟩, 0⟩ true "i32 (...)*" ∧
    ctx.CalledAs ⟨⟨⟨1⟩, 3⟩⟩ ⟨⟨1⟩, 4⟩ ⟨⟨1⟩, 2⟩ false "i32 (...)*" ∧
    ctx.operation ⟨⟨⟨1⟩, 3⟩⟩ = .ok (.call ⟨⟨1⟩, 1⟩ [] .c) ∧
    (Listing.instruction ctx {} ⟨⟨⟨1⟩, 2⟩⟩).render = .ok "%x = call i32 (...)* @v()" ∧
    (Listing.instruction ctx {} ⟨⟨⟨1⟩, 3⟩⟩).render = .ok "%y = call i32 (...)* @g()" := by
  have computed : (alikeCalls.contexts[0]?).any (fun ctx : Context =>
      (ctx.valueType ⟨⟨1⟩, 2⟩ = .ok ⟨⟨1⟩, 0⟩ ∧
        ctx.operation ⟨⟨⟨1⟩, 2⟩⟩ = .ok (.call ⟨⟨1⟩, 0⟩ [] .c) ∧
        ctx.valueType ⟨⟨1⟩, 0⟩ = .ok ⟨⟨1⟩, 2⟩ ∧
        ctx.calleeSignature? ⟨⟨1⟩, 0⟩ = .ok (some ⟨⟨⟨1⟩, 1⟩⟩) ∧
        ctx.signature ⟨⟨⟨1⟩, 1⟩⟩ = .ok (⟨⟨1⟩, 0⟩, [], true) ∧
        Listing.calledTypeText ctx ⟨⟨1⟩, 0⟩ ⟨⟨1⟩, 0⟩ = .ok "i32 (...)*") ∧
      (ctx.valueType ⟨⟨1⟩, 3⟩ = .ok ⟨⟨1⟩, 2⟩ ∧
        ctx.operation ⟨⟨⟨1⟩, 3⟩⟩ = .ok (.call ⟨⟨1⟩, 1⟩ [] .c) ∧
        ctx.valueType ⟨⟨1⟩, 1⟩ = .ok ⟨⟨1⟩, 4⟩ ∧
        ctx.calleeSignature? ⟨⟨1⟩, 1⟩ = .ok (some ⟨⟨⟨1⟩, 3⟩⟩) ∧
        ctx.signature ⟨⟨⟨1⟩, 3⟩⟩ = .ok (⟨⟨1⟩, 2⟩, [], false) ∧
        Listing.calledTypeText ctx ⟨⟨1⟩, 1⟩ ⟨⟨1⟩, 2⟩ = .ok "i32 (...)*") ∧
      (Listing.instruction ctx {} ⟨⟨⟨1⟩, 2⟩⟩).render = .ok "%x = call i32 (...)* @v()" ∧
      (Listing.instruction ctx {} ⟨⟨⟨1⟩, 3⟩⟩).render = .ok "%y = call i32 (...)* @g()") = true := by
    decide +kernel
  obtain ⟨ctx, found, computed⟩ := (Option.any_eq_true _ _).mp computed
  obtain ⟨variadic, plain, line, line'⟩ := of_decide_eq_true computed
  exact ⟨ctx, List.mem_of_getElem? found, ⟨_, _, _, _, _, _, variadic⟩, ⟨_, _, _, _, _, _, plain⟩,
    plain.2.1, line, line'⟩

/-- The text alone does not tell what a call returns. -/
theorem alikeCalls_return_apart : alikeCalls.Reachable ∧ ∃ ctx ∈ alikeCalls.contexts,
    ctx.CalledAs ⟨⟨⟨1⟩, 2⟩⟩ ⟨⟨1⟩, 2⟩ ⟨⟨1⟩, 0⟩ true "i32 (...)*" ∧
    ctx.CalledAs ⟨⟨⟨1⟩, 3⟩⟩ ⟨⟨1⟩, 4⟩ ⟨⟨1⟩, 2⟩ false "i32 (...)*" ∧
    (Listing.instruction ctx {} ⟨⟨⟨1⟩, 2⟩⟩).render = .ok "%x = call i32 (...)* @v()" ∧
    (Listing.instruction ctx {} ⟨⟨⟨1⟩, 3⟩⟩).render = .ok "%y = call i32 (...)* @g()" ∧
    (⟨⟨1⟩, 0⟩ : TypeRef) ≠ ⟨⟨1⟩, 2⟩ := by
  obtain ⟨ctx, mem, variadic, plain, _, line, line'⟩ := alikeCalls_called
  exact ⟨reachable_after (by decide +kernel), ctx, mem, variadic, plain, line, line', by decide⟩

theorem alikeCalls_variadic_told : ∃ ctx ∈ alikeCalls.contexts,
    (∃ calleeType result variadic text definition reference inside,
      ctx.CalledAs ⟨⟨⟨1⟩, 3⟩⟩ calleeType result variadic text ∧
      (Listing.ref ctx {} ⟨⟨1⟩, 1⟩).render = .ok reference ∧
      "%y = call i32 (...)* @g()" =
        definition ++ "call " ++ text ++ " " ++ reference ++ "(" ++ inside ++ ")") ∧
    ctx.CalledAs ⟨⟨⟨1⟩, 2⟩⟩ ⟨⟨1⟩, 2⟩ ⟨⟨1⟩, 0⟩ true "i32 (...)*" ∧
    (∀ i calleeType result, ctx.CalledAs i calleeType result true "i32 (...)*" →
      result = ⟨⟨1⟩, 0⟩) ∧
    ∀ i calleeType result, ctx.CalledAs i calleeType result false "i32 (...)*" →
      result = ⟨⟨1⟩, 2⟩ := by
  obtain ⟨ctx, mem, variadic, plain, made, _, line⟩ := alikeCalls_called
  obtain ⟨lines, calls⟩ := called_type_texts (reachable_after (by decide +kernel)) mem
  obtain ⟨calleeType, result, sort, text, definition, reference, inside, called, _, _, referred,
    whole⟩ := lines _ _ _ _ {} _ made line
  refine ⟨ctx, mem, ⟨calleeType, result, sort, text, definition, reference, inside, called, referred,
    ?_⟩, variadic, fun i calleeType result called => ?_, fun i calleeType result called => ?_⟩
  · simpa [Listing.conventionText, String.append_assoc] using whole
  · exact (calls _ _ _ _ _ _ _ _ _ _ called variadic).1 rfl rfl
  · exact ((calls _ _ _ _ _ _ _ _ _ _ variadic called).2 rfl rfl).1.mp rfl

end World
end ModuleIR
