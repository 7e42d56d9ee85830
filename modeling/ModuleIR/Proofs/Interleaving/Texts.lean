import ModuleIR.Listing.Modules
import ModuleIR.Proofs.Interleaving.Checks

set_option autoImplicit false

/-!
# Printing alike

A listing is made of texts and of what is read. Names are the same in a context and in one that
tracks it, and so are the texts of types and constants. A number is the position of an entity among
the unnamed ones, which the counterparts of these share. So the counterpart of a module is printed as
the module is.
-/
namespace ModuleIR

open List (Forall₂)

open Checked (Echoed)

namespace Listing

/-- Where the first listing has a text, the second has the same. -/
def Echoes (l l' : Listing) : Prop := Echoed Eq l.render l'.render

namespace Echoes

variable {l l' r r' : Listing}

theorem refl (l : Listing) : Echoes l l := fun text read => ⟨text, read, rfl⟩

theorem append (first : Echoes l l') (second : Echoes r r') : Echoes (l ++ r) (l' ++ r') := by
  rw [Echoes, render_append, render_append]
  refine Echoed.bind first fun t t' same => ?_
  refine Echoed.bind second fun u u' same' => .pure ?_
  rw [same, same']

theorem cons {piece : Piece} (rest : Echoes l l') : Echoes (piece :: l) (piece :: l') :=
  append (l := [piece]) (refl [piece]) rest

theorem fault {violation : Violation} : Echoes [.fault violation] l := by
  rintro text ⟨⟩

theorem reading_known {α β : Type} {R : α → β → Prop} {x : Checked α} {y : Checked β}
    {f : α → Listing} {g : β → Listing} (first : Echoed R x y)
    (next : ∀ a b, x = .ok a → y = .ok b → R a b → Echoes (f a) (g b)) :
    Echoes (Listing.reading x f) (Listing.reading y g) := by
  cases x with
  | error => exact fault
  | ok a =>
    obtain ⟨b, rfl, same⟩ := first a rfl
    exact next a b rfl rfl same

theorem reading {α β : Type} {R : α → β → Prop} {x : Checked α} {y : Checked β} {f : α → Listing}
    {g : β → Listing} (first : Echoed R x y) (next : ∀ a b, R a b → Echoes (f a) (g b)) :
    Echoes (Listing.reading x f) (Listing.reading y g) :=
  reading_known first fun a b _ _ => next a b

theorem flatMap {α β : Type} {R : α → β → Prop} {f : α → Listing} {g : β → Listing} {as : List α}
    {bs : List β} (listed : Forall₂ R as bs) (each : ∀ a b, R a b → Echoes (f a) (g b)) :
    Echoes (as.flatMap f) (bs.flatMap g) := by
  induction listed with
  | nil => exact refl []
  | cons head _ ih => exact append (each _ _ head) ih

theorem separated {separator : String} {ls ls' : List Listing} (listed : Forall₂ Echoes ls ls') :
    Echoes (Listing.separated separator ls) (Listing.separated separator ls') := by
  induction listed with
  | nil => exact refl []
  | cons head others ih =>
    cases others with
    | nil => exact head
    | cons => exact head.append (.cons ih)

end Echoes
end Listing

namespace Pairing

variable {ρ : Pairing} {c₁ c : Context}

theorem forall₂_mem {α β : Type} {R : α → β → Prop} {as : List α} {bs : List β}
    (listed : Forall₂ R as bs) : Forall₂ (fun a b => a ∈ as ∧ b ∈ bs ∧ R a b) as bs := by
  induction listed with
  | nil => exact .nil
  | cons head _ ih =>
    refine .cons ⟨List.mem_cons_self, List.mem_cons_self, head⟩ (ih.imp fun _ _ ⟨mem, mem', same⟩ => ?_)
    exact ⟨List.mem_cons_of_mem _ mem, List.mem_cons_of_mem _ mem', same⟩

theorem isEmpty_eq {α β : Type} {R : α → β → Prop} {as : List α} {bs : List β}
    (listed : Forall₂ R as bs) : bs.isEmpty = as.isEmpty := by
  cases listed <;> rfl

/-- The same numbers for entities that stand for each other. -/
structure Numbers (ρ : Pairing) (slots slots' : Slots) : Prop where
  globals : Forall₂ ρ.Values slots.globals slots'.globals
  locals : Forall₂ ρ.Symbols slots.locals slots'.locals

namespace Reflects

variable (tracks : ρ.Reflects c₁ c)
include tracks

/-! ### Numbers of unnamed entities -/

theorem unnamedValues {vs vs' : List ValueRef} (listed : Forall₂ ρ.Values vs vs') :
    Echoed (Forall₂ ρ.Values) (c₁.unnamedValues vs) (c.unnamedValues vs') := by
  induction listed with
  | nil => exact .pure .nil
  | cons paired _ ih =>
    refine (tracks.valueName paired).bind fun name _ same => ?_
    subst same
    refine ih.bind fun _ _ others => ?_
    cases name with
    | none => exact .pure (.cons paired others)
    | some => exact .pure others

omit tracks in
theorem through_map {α : Type} {value : α → ValueRef} {as as' : List α}
    (listed : Forall₂ (ρ.Through value) as as') :
    Forall₂ ρ.Values (as.map value) (as'.map value) := by
  rw [List.forall₂_map_left_iff, List.forall₂_map_right_iff]
  exact listed

theorem globalSlots {m m' : ModuleRef} (paired : ρ.Modules m m') :
    Echoed (Forall₂ ρ.Values) (c₁.globalSlots m) (c.globalSlots m') :=
  (tracks.module m m' paired).bind fun _ _ modules =>
    tracks.unnamedValues (List.rel_append (through_map modules.globals)
      (through_map modules.functions))

theorem instructionSlots {is is' : List InstructionRef}
    (listed : Forall₂ (ρ.Through InstructionRef.value) is is') :
    Echoed (Forall₂ ρ.Symbols) (c₁.instructionSlots is) (c.instructionSlots is') := by
  induction listed with
  | nil => exact .pure .nil
  | cons paired _ ih =>
    refine (tracks.value _ _ paired).bind fun r r' same => ?_
    refine (tracks.shape _ _ same.type).bind fun s s' shapes => ?_
    refine ih.bind fun _ _ others => ?_
    rw [same.name, shapes.isVoid]
    cases r.name.isNone && !s.isVoid with
    | true => exact .pure (.cons (.value paired) others)
    | false => exact .pure others

theorem blockSlots {bs bs' : List BlockRef} (listed : Forall₂ ρ.Blocks bs bs') :
    Echoed (Forall₂ ρ.Symbols) (c₁.blockSlots bs) (c.blockSlots bs') := by
  induction listed with
  | nil => exact .pure .nil
  | cons paired _ ih =>
    refine (tracks.block _ _ paired).bind fun r r' same => ?_
    refine (tracks.instructionSlots same.instructions).bind fun _ _ inside => ?_
    refine ih.bind fun _ _ others => ?_
    rw [same.name]
    cases r.name.isNone with
    | true => exact .pure (.cons (.block paired) (List.rel_append inside others))
    | false => exact .pure (List.rel_append inside others)

theorem localSlots {f f' : FunctionRef} (paired : ρ.Through FunctionRef.value f f') :
    Echoed (Forall₂ ρ.Symbols) (c₁.localSlots f) (c.localSlots f') := by
  refine (tracks.function paired).bind fun _ _ functions => ?_
  refine (tracks.unnamedValues (through_map functions.args)).bind fun _ _ args => ?_
  refine (tracks.blockSlots functions.blocks).bind fun _ _ blocks => .pure ?_
  exact List.rel_append (List.rel_map (fun _ _ paired => .value paired) args) blocks

/-! ### Types -/

section Texts

variable (wf : c.WellFormed)
include wf

theorem describeTypeWithin {depth depth' : Nat} {t t' : TypeRef} (deep : t'.index < depth')
    (paired : ρ.Types t t') :
    Echoed Eq (c₁.describeTypeWithin depth t) (c.describeTypeWithin depth' t') := by
  induction depth generalizing depth' t t' with
  | zero => exact .throw
  | succ depth ih =>
    obtain ⟨depth', rfl⟩ : ∃ d, depth' = d + 1 := ⟨depth' - 1, by omega⟩
    obtain ⟨s, s', read, read', shapes⟩ := tracks.shapes paired
    have inner {u u' : TypeRef} (mem : u' ∈ s'.inner) (same : ρ.Types u u') :
        Echoed Eq (c₁.describeTypeWithin depth u) (c.describeTypeWithin depth' u') := by
      have lower := (wf.inner _ s' (Context.shape_eq_ok.mp read').2 u' mem).2
      exact ih (by omega) same
    rw [Context.describeTypeWithin, Context.describeTypeWithin, read, read', Checked.ok_bind,
      Checked.ok_bind]
    cases shapes with
    | void | label | integer => exact .pure rfl
    | pointer pointee space =>
      exact (inner List.mem_cons_self pointee).bind fun _ _ same => .pure (by rw [same])
    | array element length =>
      exact (inner List.mem_cons_self element).bind fun _ _ same => .pure (by rw [same])
    | function result params variadic =>
      refine (inner List.mem_cons_self result).bind fun _ _ same => ?_
      refine (Echoed.mapM (forall₂_mem params) fun u u' ⟨_, mem, paired⟩ =>
        inner (List.mem_cons_of_mem _ mem) paired).bind fun _ _ texts => .pure ?_
      rw [List.forall₂_eq_eq_eq] at texts
      rw [same, texts]

theorem describeType {t t' : TypeRef} (paired : ρ.Types t t') :
    Echoed Eq (c₁.describeType t) (c.describeType t') :=
  tracks.describeTypeWithin wf (Nat.lt_succ_self _) paired

theorem describeTypeOf {v v' : ValueRef} (paired : ρ.Values v v') :
    Echoed Eq (c₁.describeTypeOf v) (c.describeTypeOf v') :=
  (tracks.valueType paired).bind fun _ _ types => tracks.describeType wf types

/-! ### Operands -/

theorem refWithin {slots slots' : Slots} (numbers : ρ.Numbers slots slots') {depth depth' : Nat}
    {v v' : ValueRef} (deep : v'.index < depth') (paired : ρ.Values v v') :
    (Listing.refWithin c₁ slots depth v).Echoes (Listing.refWithin c slots' depth' v') := by
  induction depth generalizing depth' v v' with
  | zero => exact .fault
  | succ depth ih =>
    obtain ⟨depth', rfl⟩ : ∃ d, depth' = d + 1 := ⟨depth' - 1, by omega⟩
    have symbols : slots'.locals.idxOf? (.value v') = slots.locals.idxOf? (.value v) :=
      idxOf?_eq symbols_unique numbers.locals (.value paired)
    have values : slots'.globals.idxOf? v' = slots.globals.idxOf? v :=
      idxOf?_eq values_unique numbers.globals paired
    refine .reading_known (tracks.value v v' paired)
      fun ⟨type, name, kind⟩ ⟨type', name', kind'⟩ read read' same => ?_
    have kinds : ρ.Kinds kind kind' := same.kind
    obtain rfl : name' = name := same.name
    cases kinds with
    | int | bytes => exact .refl _
    | global | function =>
      dsimp only
      rw [values]
      exact .refl _
    | argument | instruction =>
      dsimp only
      rw [symbols]
      exact .refl _
    | @elementPtr e e' record =>
      have sound := wf.elementPtrSound read' rfl
      have operand {u u' : ValueRef} (lower : u'.index < v'.index) (same : ρ.Values u u') :
          (Listing.reading (c₁.describeTypeOf u) fun type =>
              .text (type ++ " ") :: Listing.refWithin c₁ slots depth u).Echoes
            (Listing.reading (c.describeTypeOf u') fun type =>
              .text (type ++ " ") :: Listing.refWithin c slots' depth' u') := by
        refine .reading (tracks.describeTypeOf wf same) fun type _ texts => ?_
        subst texts
        exact .cons (ih (by omega) same)
      refine .reading (tracks.describeType wf record.sourceType) fun source _ texts => ?_
      subst texts
      rw [record.inBounds]
      refine .cons (.append (.append (operand sound.baseBefore record.base) ?_) (.refl _))
      refine .flatMap (forall₂_mem record.indices) fun u u' ⟨_, mem, same⟩ => .cons ?_
      exact operand (sound.indicesBefore u' mem) same

theorem ref {slots slots' : Slots} (numbers : ρ.Numbers slots slots') {v v' : ValueRef}
    (paired : ρ.Values v v') : (Listing.ref c₁ slots v).Echoes (Listing.ref c slots' v') :=
  tracks.refWithin wf numbers (Nat.lt_succ_self _) paired

theorem operand {slots slots' : Slots} (numbers : ρ.Numbers slots slots') {v v' : ValueRef}
    (paired : ρ.Values v v') :
    (Listing.operand c₁ slots v).Echoes (Listing.operand c slots' v') := by
  refine .reading (tracks.describeTypeOf wf paired) fun type _ texts => ?_
  subst texts
  exact .cons (tracks.ref wf numbers paired)

omit wf in
theorem blockRef {slots slots' : Slots} (numbers : ρ.Numbers slots slots') {b b' : BlockRef}
    (paired : ρ.Blocks b b') :
    (Listing.blockRef c₁ slots b).Echoes (Listing.blockRef c slots' b') := by
  refine .cons (.reading (tracks.block b b' paired) fun r r' same => ?_)
  rw [same.name, idxOf?_eq symbols_unique numbers.locals (.block paired)]
  exact .refl _

/-! ### Instructions -/

theorem calledTypeText {v v' : ValueRef} {t t' : TypeRef} (callee : ρ.Values v v')
    (result : ρ.Types t t') :
    Echoed Eq (Listing.calledTypeText c₁ v t) (Listing.calledTypeText c v' t') := by
  refine (tracks.calleeSignature? callee).bind fun _ _ same => ?_
  have results := tracks.describeType wf result
  cases same with
  | none => exact results
  | some types =>
    refine (tracks.signature types).bind fun ⟨_, _, variadic⟩ ⟨_, _, variadic'⟩ ⟨_, _, same⟩ => ?_
    obtain rfl : variadic' = variadic := same
    exact .ite .rfl (fun _ => tracks.describeTypeOf wf callee) fun _ => results

theorem operationListing {slots slots' : Slots} (numbers : ρ.Numbers slots slots') {t t' : TypeRef}
    {o o' : Operation} (type : ρ.Types t t') (operations : ρ.Operations o o') :
    (Listing.operation c₁ slots t o).Echoes (Listing.operation c slots' t' o') := by
  cases operations with
  | call callee args convention =>
    refine .cons (.reading (tracks.calledTypeText wf callee type) fun called _ same => ?_)
    subst same
    refine .cons (.append (.append (tracks.ref wf numbers callee) (.cons (.separated ?_)))
      (.refl _))
    rw [List.forall₂_map_left_iff, List.forall₂_map_right_iff]
    exact args.imp fun _ _ paired => tracks.operand wf numbers paired
  | ret value =>
    cases value with
    | none => exact .refl _
    | some paired => exact .cons (tracks.operand wf numbers paired)
  | br target => exact .cons (tracks.blockRef numbers target)
  | condBr cond ifTrue ifFalse =>
    exact .cons (.append (.append (tracks.operand wf numbers cond)
      (.cons (tracks.blockRef numbers ifTrue))) (.cons (tracks.blockRef numbers ifFalse)))

theorem instructionListing {slots slots' : Slots} (numbers : ρ.Numbers slots slots')
    {i i' : InstructionRef} (paired : ρ.Through InstructionRef.value i i') :
    (Listing.instruction c₁ slots i).Echoes (Listing.instruction c slots' i') := by
  unfold Listing.instruction
  refine .reading (tracks.value _ _ paired) fun r r' same => ?_
  refine .reading (tracks.shape _ _ same.type) fun s s' shapes => ?_
  refine .append ?_ ?_
  · rw [shapes.isVoid]
    cases s.isVoid with
    | true => exact .refl []
    | false => exact .append (tracks.ref wf numbers paired) (.refl _)
  · exact .reading (tracks.operation paired) fun o o' operations =>
      tracks.operationListing wf numbers same.type operations

/-! ### Functions and modules -/

theorem instructionLines {slots slots' : Slots} (numbers : ρ.Numbers slots slots')
    {is is' : List InstructionRef} (listed : Forall₂ (ρ.Through InstructionRef.value) is is') :
    (Listing.instructionLines c₁ slots is).Echoes (Listing.instructionLines c slots' is') :=
  .flatMap listed fun _ _ paired =>
    .cons (.append (tracks.instructionListing wf numbers paired) (.refl _))

theorem blockLines {slots slots' : Slots} (numbers : ρ.Numbers slots slots') {first : Bool}
    {b b' : BlockRef} (paired : ρ.Blocks b b') :
    (Listing.blockLines c₁ slots first b).Echoes (Listing.blockLines c slots' first b') := by
  refine .append (.refl _) (.reading (tracks.block b b' paired) fun r r' same => ?_)
  refine .append ?_ (tracks.instructionLines wf numbers same.instructions)
  rw [same.name]
  simp only [Listing.labelLine, idxOf?_eq symbols_unique numbers.locals (.block paired)]
  exact .refl _

theorem bodyLines {slots slots' : Slots} (numbers : ρ.Numbers slots slots') {bs bs' : List BlockRef}
    (listed : Forall₂ ρ.Blocks bs bs') :
    (Listing.bodyLines c₁ slots bs).Echoes (Listing.bodyLines c slots' bs') := by
  cases listed with
  | nil => exact .refl _
  | cons head rest =>
    exact .append (tracks.blockLines wf numbers head)
      (.flatMap rest fun _ _ paired => tracks.blockLines wf numbers paired)

theorem parameter {slots slots' : Slots} (numbers : ρ.Numbers slots slots') {declared : Bool}
    {a a' : ArgumentRef} (paired : ρ.Through ArgumentRef.value a a') :
    (Listing.parameter c₁ slots declared a).Echoes (Listing.parameter c slots' declared a') := by
  cases declared with
  | false => exact tracks.operand wf numbers paired
  | true =>
    refine .reading (tracks.describeTypeOf wf paired) fun type _ texts => ?_
    subst texts
    exact .refl _

theorem functionLines {vs vs' : List ValueRef} (globals : Forall₂ ρ.Values vs vs')
    {f f' : FunctionRef} (paired : ρ.Through FunctionRef.value f f') :
    (Listing.functionLines c₁ vs f).Echoes (Listing.functionLines c vs' f') := by
  refine .reading (tracks.localSlots paired) fun locals locals' slots => ?_
  have numbers : ρ.Numbers { globals := vs, locals } { globals := vs', locals := locals' } :=
    ⟨globals, slots⟩
  refine .reading (tracks.function paired) fun r r' functions => ?_
  refine .reading (tracks.signature functions.signature)
    fun ⟨result, _, variadic⟩ ⟨result', _, variadic'⟩ ⟨results, _, same⟩ => ?_
  obtain rfl : variadic' = variadic := same
  have declared : r'.blocks.isEmpty = r.blocks.isEmpty := isEmpty_eq functions.blocks
  refine .reading (tracks.describeType wf results) fun type _ texts => ?_
  subst texts
  dsimp only
  rw [functions.linkage, functions.convention, declared]
  refine .cons (.append (.append (tracks.ref wf numbers paired) (.cons (.separated ?_))) ?_)
  · refine List.rel_append ?_ ?_
    · rw [List.forall₂_map_left_iff, List.forall₂_map_right_iff]
      exact functions.args.imp fun _ _ paired => tracks.parameter wf numbers paired
    · cases variadic' with
      | true => exact .cons (.refl _) .nil
      | false => exact .nil
  · cases r.blocks.isEmpty with
    | true => exact .refl [_]
    | false =>
      exact .cons (.append (tracks.bodyLines wf numbers functions.blocks) (.refl [_]))

theorem globalLine {vs vs' : List ValueRef} (globals : Forall₂ ρ.Values vs vs') {g g' : GlobalRef}
    (paired : ρ.Through GlobalRef.value g g') :
    (Listing.globalLine c₁ { globals := vs } g).Echoes
      (Listing.globalLine c { globals := vs' } g') := by
  have numbers : ρ.Numbers { globals := vs } { globals := vs' } := ⟨globals, .nil⟩
  unfold Listing.globalLine
  refine .append (tracks.ref wf numbers paired) ?_
  refine .reading (tracks.global paired) fun r r' same => ?_
  have inits := same.initializer
  refine .reading (tracks.describeType wf same.valueType) fun type _ texts => ?_
  subst texts
  rw [same.linkage, same.threadLocal, same.space, same.externallyInitialized, same.isConstant]
  generalize r.initializer = init, r'.initializer = init' at inits ⊢
  cases inits with
  | none => exact .refl _
  | some init => exact .cons (.cons (tracks.ref wf numbers init))

/-- Where a module has a text, its counterpart has the same. -/
theorem moduleText {m m' : ModuleRef} (paired : ρ.Modules m m') :
    Echoed Eq (c₁.moduleText m) (c.moduleText m') := by
  change (Listing.module c₁ m).Echoes (Listing.module c m')
  unfold Listing.module
  refine .reading (tracks.globalSlots paired) fun vs vs' globals => ?_
  refine .reading (tracks.module m m' paired) fun r r' same => ?_
  rw [same.name, isEmpty_eq same.globals]
  refine .cons (.append (.append (.refl _) (.flatMap same.globals fun g g' paired => ?_))
    (.flatMap same.functions fun f f' paired => ?_))
  · exact .append (tracks.globalLine wf globals paired) (.refl _)
  · exact .cons (tracks.functionLines wf globals paired)

end Texts
end Reflects
end Pairing
end ModuleIR
