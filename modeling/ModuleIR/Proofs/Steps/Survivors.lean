import ModuleIR.Proofs.Steps.Erasure

set_option autoImplicit false

/-!
# What survives an erasure

An entity can be read after the erasure of a module exactly when it could be read before and does not
belong to the module. What belongs together is erased together, so that the rest is well-formed.
-/
namespace ModuleIR

namespace Context

variable {ctx ctx' : Context} {m : ModuleRef} {v : ValueRef}

/-! ### Belonging, by what a value is -/

theorem belongsTo_listed {owner : ModuleRef} (home : ctx.Anchored v (.module owner)) :
    ctx.BelongsTo m v ↔ owner = m := by
  constructor
  · rintro (home' | ⟨_, _, home', _⟩)
    · exact (Anchor.module.inj (home.unique home')).symm
    · cases home.unique home'
  · rintro rfl
    exact .inl home

theorem belongsTo_global {g : GlobalRef} {r : GlobalRecord} (h : ctx.global g = .ok r) :
    ctx.BelongsTo m g.value ↔ r.module = m := by
  obtain ⟨value, read, kind⟩ := global_eq_ok.mp h
  exact belongsTo_listed (.global read kind)

theorem belongsTo_function {f : FunctionRef} {r : FunctionRecord} (h : ctx.function f = .ok r) :
    ctx.BelongsTo m f.value ↔ r.module = m := by
  obtain ⟨value, read, kind⟩ := function_eq_ok.mp h
  exact belongsTo_listed (.function read kind)

theorem belongsTo_inside {f : FunctionRef} {r : FunctionRecord} (home : ctx.Anchored v (.function f))
    (h : ctx.function f = .ok r) : ctx.BelongsTo m v ↔ r.module = m := by
  constructor
  · rintro (home' | ⟨f', r', home', h', within⟩)
    · cases home.unique home'
    · obtain rfl := Anchor.function.inj (home.unique home')
      obtain rfl := Checked.unique h h'
      exact within
  · intro within
    exact .inr ⟨f, r, home, h, within⟩

theorem blockBelongsTo_placed {b : BlockRef} {br : BlockRecord} {f : FunctionRef}
    {r : FunctionRecord} (read : ctx.block b = .ok br) (parent : br.parent = some f)
    (h : ctx.function f = .ok r) : ctx.BlockBelongsTo m b ↔ r.module = m := by
  constructor
  · rintro ⟨br', f', r', read', parent', h', within⟩
    obtain rfl := Checked.unique read read'
    obtain rfl := Option.some.inj (parent.symm.trans parent')
    obtain rfl := Checked.unique h h'
    exact within
  · intro within
    exact ⟨br, f, r, read, parent, h, within⟩

theorem not_blockBelongsTo_detached {b : BlockRef} {br : BlockRecord} (read : ctx.block b = .ok br)
    (parent : br.parent = none) : ¬ctx.BlockBelongsTo m b := by
  rintro ⟨br', f', r', read', parent', _⟩
  obtain rfl := Checked.unique read read'
  rw [parent] at parent'
  cases parent'

theorem belongsTo_instruction {i : InstructionRef} {r : InstructionRecord}
    (wf : ctx.WellFormed) (h : ctx.instruction i = .ok r) :
    ctx.BelongsTo m i.value ↔ ctx.BlockBelongsTo m r.parent := by
  obtain ⟨value, read, kind⟩ := instruction_eq_ok.mp h
  obtain ⟨br, placed, _⟩ := wf.instruction_listed h
  cases parent : br.parent with
  | some f =>
    obtain ⟨fr, known, _⟩ := wf.block_listed placed parent
    rw [belongsTo_inside (.placed read kind placed parent) known,
      blockBelongsTo_placed placed parent known]
  | none =>
    have home : ctx.Anchored i.value .detached := .detached read kind placed parent
    refine iff_of_false ?_ (not_blockBelongsTo_detached placed parent)
    rintro (home' | ⟨_, _, home', _⟩)
    · cases home.unique home'
    · cases home.unique home'

/-- What is at home elsewhere does not belong to the module. -/
theorem not_belongsTo_other {n : ModuleRef} (home : ctx.Anchored v (.module n)) (other : n ≠ m) :
    ¬ctx.BelongsTo m v := by
  rintro (home' | ⟨_, _, home', _⟩)
  · exact other (Anchor.module.inj (home.unique home')).symm
  · cases home.unique home'

namespace Erases

variable (e : ctx.Erases m ctx')
include e

theorem id : ctx'.id = ctx.id := e.entombs.id

theorem shape (t : TypeRef) : ctx'.shape t = ctx.shape t :=
  shape_congr e.entombs.id e.entombs.types t

theorem value {r : ValueRecord} :
    ctx'.value v = .ok r ↔ ctx.value v = .ok r ∧ ¬ctx.BelongsTo m v := by
  rw [e.entombs.value]
  refine and_congr_right fun read => ?_
  rw [value_self read]

theorem block {b : BlockRef} {r : BlockRecord} :
    ctx'.block b = .ok r ↔ ctx.block b = .ok r ∧ ¬ctx.BlockBelongsTo m b := by
  rw [e.entombs.block]
  refine and_congr_right fun read => ?_
  rw [block_self read]

theorem module {n : ModuleRef} {r : ModuleRecord} :
    ctx'.module n = .ok r ↔ ctx.module n = .ok r ∧ n ≠ m := by
  rw [module_eq_ok, module_eq_ok, e.id, e.modules, Array.getElem?_modify, and_assoc]
  refine and_congr_right fun owner => ?_
  split
  · rename_i same
    have whole : n = m := by
      rw [← e.owner] at owner
      cases n
      cases m
      exact ModuleRef.mk.injEq .. ▸ ⟨owner, same.symm⟩
    simp [whole]
  · rename_i other
    have different : n ≠ m := fun same => other (same ▸ rfl)
    simp [different]

theorem value_kind {kind : ValueKind} :
    (∃ value, ctx'.value v = .ok value ∧ value.kind = kind) ↔
      (∃ value, ctx.value v = .ok value ∧ value.kind = kind) ∧ ¬ctx.BelongsTo m v := by
  simp only [e.value]
  constructor
  · rintro ⟨value, ⟨read, stays⟩, kind⟩
    exact ⟨⟨value, read, kind⟩, stays⟩
  · rintro ⟨⟨value, read, kind⟩, stays⟩
    exact ⟨value, ⟨read, stays⟩, kind⟩

theorem global {g : GlobalRef} {r : GlobalRecord} :
    ctx'.global g = .ok r ↔ ctx.global g = .ok r ∧ r.module ≠ m := by
  rw [global_eq_ok, e.value_kind, ← global_eq_ok]
  exact and_congr_right fun known => not_congr (belongsTo_global known)

theorem function {f : FunctionRef} {r : FunctionRecord} :
    ctx'.function f = .ok r ↔ ctx.function f = .ok r ∧ r.module ≠ m := by
  rw [function_eq_ok, e.value_kind, ← function_eq_ok]
  exact and_congr_right fun known => not_congr (belongsTo_function known)

theorem argument {a : ArgumentRef} {r : ArgumentRecord} :
    ctx'.argument a = .ok r ↔ ctx.argument a = .ok r ∧ ¬ctx.BelongsTo m a.value := by
  rw [argument_eq_ok, argument_eq_ok]
  exact e.value_kind

theorem instruction {i : InstructionRef} {r : InstructionRecord} :
    ctx'.instruction i = .ok r ↔ ctx.instruction i = .ok r ∧ ¬ctx.BelongsTo m i.value := by
  rw [instruction_eq_ok, instruction_eq_ok]
  exact e.value_kind

theorem anchored (wf : ctx.WellFormed) {anchor : Anchor} :
    ctx'.Anchored v anchor ↔ ctx.Anchored v anchor ∧ ¬ctx.BelongsTo m v := by
  constructor
  · intro h
    refine ⟨?_, ?_⟩
    · induction h with
      | int read kind => exact .int (e.value.mp read).1 kind
      | bytes read kind => exact .bytes (e.value.mp read).1 kind
      | elementPtr read kind base ih => exact .elementPtr (e.value.mp read).1 kind ih
      | global read kind => exact .global (e.value.mp read).1 kind
      | function read kind => exact .function (e.value.mp read).1 kind
      | argument read kind => exact .argument (e.value.mp read).1 kind
      | placed read kind block parent =>
        exact .placed (e.value.mp read).1 kind (e.block.mp block).1 parent
      | detached read kind block parent =>
        exact .detached (e.value.mp read).1 kind (e.block.mp block).1 parent
    · obtain ⟨r, read⟩ := h.live
      exact (e.value.mp read).2
  · rintro ⟨h, stays⟩
    induction h with
    | int read kind => exact .int (e.value.mpr ⟨read, stays⟩) kind
    | bytes read kind => exact .bytes (e.value.mpr ⟨read, stays⟩) kind
    | elementPtr read kind base ih =>
      exact .elementPtr (e.value.mpr ⟨read, stays⟩) kind
        (ih (mt (belongsTo_elementPtr read kind).mpr stays))
    | global read kind => exact .global (e.value.mpr ⟨read, stays⟩) kind
    | function read kind => exact .function (e.value.mpr ⟨read, stays⟩) kind
    | argument read kind => exact .argument (e.value.mpr ⟨read, stays⟩) kind
    | @placed v r i b f read kind block parent =>
      have known : ctx.instruction ⟨v⟩ = .ok i := instruction_eq_ok.mpr ⟨r, read, kind⟩
      exact .placed (e.value.mpr ⟨read, stays⟩) kind
        (e.block.mpr ⟨block, mt (belongsTo_instruction wf known).mpr stays⟩) parent
    | @detached v r i b read kind block parent =>
      exact .detached (e.value.mpr ⟨read, stays⟩) kind
        (e.block.mpr ⟨block, not_blockBelongsTo_detached block parent⟩) parent

theorem fits {h : Handle} (fits : ctx.Fits h) : ctx'.Fits h := by
  cases h with
  | type view t =>
    obtain ⟨shape, stored, accepted⟩ := fits
    exact ⟨shape, by rw [e.entombs.types, stored], accepted⟩
  | value view v =>
    obtain ⟨r, stored, accepted⟩ := fits
    by_cases gone : ctx.BelongsTo m ⟨ctx.id, v.index⟩
    · exact ⟨r.tombstone, by rw [e.entombs.values _ gone, stored]; rfl, .inr rfl⟩
    · exact ⟨r, by rw [e.entombs.kept _ gone, stored], accepted⟩
  | block b =>
    obtain ⟨r, stored⟩ := fits
    by_cases gone : ctx.BlockBelongsTo m ⟨ctx.id, b.index⟩
    · exact ⟨r.tombstone, by rw [e.entombs.blocks _ gone, stored]; rfl⟩
    · exact ⟨r, by rw [e.entombs.keptBlocks _ gone, stored]⟩
  | module n =>
    obtain ⟨r, stored⟩ := fits
    change ∃ r, ctx'.modules[n.index]? = some r
    rw [e.modules, Array.getElem?_modify]
    split
    · exact ⟨none, by rw [stored]; rfl⟩
    · exact ⟨r, stored⟩

theorem admits {h : Handle} (admitted : ctx.Admits h) : ctx'.Admits h :=
  fun owner => e.fits (admitted (owner.trans e.id))

theorem holds {h : Handle} (held : ctx.Holds h) : ctx'.Holds h :=
  ⟨held.1.trans e.id.symm, e.fits held.2⟩

/-! ### The rest is well-formed -/

theorem hasType {t : TypeRef} (h : ctx.HasType t) : ctx'.HasType t := by
  obtain ⟨shape, read⟩ := h
  exact ⟨shape, (e.shape t).trans read⟩

theorem elementPtrSound {r : ValueRecord} {p : ElementPtrRecord} (wf : ctx.WellFormed)
    (read : ctx.value v = .ok r) (kind : r.kind = .elementPtr p) (stays : ¬ctx.BelongsTo m v) :
    ctx'.ElementPtrSound v.index p := by
  have sound := wf.elementPtrSound read kind
  refine ⟨e.hasType sound.sourceType, sound.baseBefore, ?_, sound.indicesBefore, ?_⟩
  · obtain ⟨base, held, constant⟩ := sound.base
    exact ⟨base, e.value.mpr ⟨held, mt (belongsTo_elementPtr read kind).mpr stays⟩, constant⟩
  · intro u mem
    obtain ⟨index, n, held, content⟩ := sound.indices u mem
    exact ⟨index, n, e.value.mpr ⟨held, not_belongsTo_free (.int held content)⟩, content⟩

theorem initializerSound {n : ModuleRef} {init : ConstantRef} (wf : ctx.WellFormed)
    (sound : ctx.InitializerSound n init) (other : n ≠ m) : ctx'.InitializerSound n init := by
  have stays : ¬ctx.BelongsTo m init.value := by
    rcases sound.home with free | home
    · exact not_belongsTo_free free
    · exact not_belongsTo_other home other
  obtain ⟨r, read, constant⟩ := sound.constant
  exact ⟨⟨r, e.value.mpr ⟨read, stays⟩, constant⟩,
    sound.home.imp (fun home => (e.anchored wf).mpr ⟨home, stays⟩)
      (fun home => (e.anchored wf).mpr ⟨home, stays⟩)⟩

theorem globalSound {g : GlobalRef} {r : GlobalRecord} (wf : ctx.WellFormed)
    (known : ctx.global g = .ok r) (other : r.module ≠ m) : ctx'.GlobalSound g.value.index r := by
  have sound := wf.globalSound known
  refine ⟨e.hasType sound.valueType, ?_, fun init h => ?_⟩
  · obtain ⟨mr, read, mem⟩ := sound.listed
    exact ⟨mr, e.module.mpr ⟨read, other⟩, e.id ▸ mem⟩
  · exact e.initializerSound wf (sound.initializer init h) other

theorem functionSound {f : FunctionRef} {r : FunctionRecord} (wf : ctx.WellFormed)
    (known : ctx.function f = .ok r) (other : r.module ≠ m) :
    ctx'.FunctionSound f.value.index r := by
  have sound := wf.functionSound known
  refine ⟨?_, ?_, ?_, ?_, sound.blocksNodup, fun h mem => e.holds (sound.names h mem)⟩
  · obtain ⟨result, params, variadic, shaped⟩ := sound.signature
    exact ⟨result, params, variadic, (e.shape _).trans shaped⟩
  · obtain ⟨mr, read, mem⟩ := sound.listed
    exact ⟨mr, e.module.mpr ⟨read, other⟩, e.id ▸ mem⟩
  · intro a mem
    obtain ⟨ar, argued, parent⟩ := wf.function_argument known mem
    obtain ⟨value, held, kind⟩ := argument_eq_ok.mp argued
    refine ⟨ar, e.argument.mpr ⟨argued, ?_⟩, ?_⟩
    · exact mt (belongsTo_inside (parent ▸ .argument held kind) known).mp other
    · rw [parent, e.id, function_self known]
  · intro b mem
    obtain ⟨br, read, parent⟩ := wf.function_block known mem
    refine ⟨br, e.block.mpr ⟨read, mt (blockBelongsTo_placed read parent known).mp other⟩, ?_⟩
    rw [parent, e.id, function_self known]

theorem argumentSound {a : ArgumentRef} {r : ArgumentRecord} (wf : ctx.WellFormed)
    (argued : ctx.argument a = .ok r) (stays : ¬ctx.BelongsTo m a.value) :
    ctx'.ArgumentSound a.value.index r := by
  obtain ⟨value, held, kind⟩ := argument_eq_ok.mp argued
  have sound := (wf.valueSound held).kind
  rw [kind] at sound
  obtain ⟨fr, known, mem⟩ := sound
  refine ⟨fr, e.function.mpr ⟨known, ?_⟩, e.id ▸ mem⟩
  exact mt (belongsTo_inside (.argument held kind) known).mpr stays

theorem instructionSound {i : InstructionRef} {r : InstructionRecord} (wf : ctx.WellFormed)
    (made : ctx.instruction i = .ok r) (stays : ¬ctx.BelongsTo m i.value) :
    ctx'.InstructionSound i.value.index r := by
  have sound := wf.instructionSound made
  refine ⟨?_, fun h mem => e.admits (sound.references h mem)⟩
  obtain ⟨br, read, mem⟩ := sound.listed
  exact ⟨br, e.block.mpr ⟨read, mt (belongsTo_instruction wf made).mpr stays⟩, e.id ▸ mem⟩

theorem valueSound {r : ValueRecord} (wf : ctx.WellFormed) (read : ctx.value v = .ok r)
    (stays : ¬ctx.BelongsTo m v) : ctx'.ValueSound v.index r := by
  have sound := wf.valueSound read
  refine ⟨e.hasType sound.type, ?_⟩
  cases kind : r.kind with
  | int n =>
    have typed := sound.kind
    rw [kind] at typed
    exact (e.shape _).trans typed
  | bytes => exact trivial
  | erased => exact trivial
  | elementPtr p => exact e.elementPtrSound wf read kind stays
  | global g =>
    have known : ctx.global ⟨v⟩ = .ok g := global_eq_ok.mpr ⟨r, read, kind⟩
    exact e.globalSound wf known (mt (belongsTo_global known).mpr stays)
  | function f =>
    have known : ctx.function ⟨v⟩ = .ok f := function_eq_ok.mpr ⟨r, read, kind⟩
    exact e.functionSound wf known (mt (belongsTo_function known).mpr stays)
  | argument a =>
    have known : ctx.argument ⟨v⟩ = .ok a := argument_eq_ok.mpr ⟨r, read, kind⟩
    exact e.argumentSound wf known stays
  | instruction i =>
    have known : ctx.instruction ⟨v⟩ = .ok i := instruction_eq_ok.mpr ⟨r, read, kind⟩
    exact e.instructionSound wf known stays

theorem blockSound {b : BlockRef} {r : BlockRecord} (wf : ctx.WellFormed)
    (read : ctx.block b = .ok r) (stays : ¬ctx.BlockBelongsTo m b) :
    ctx'.BlockSound b.index r := by
  have sound := wf.blockSound read
  refine ⟨fun f h => (sound.owner f h).trans e.id.symm, sound.tombstone, ?_, ?_, sound.nodup⟩
  · intro live f parent
    obtain ⟨fr, known, mem⟩ := sound.parent live f parent
    refine ⟨fr, e.function.mpr ⟨known, ?_⟩, e.id ▸ mem⟩
    exact mt (blockBelongsTo_placed read parent known).mpr stays
  · intro i mem
    obtain ⟨ir, made, parent⟩ := wf.block_instruction read mem
    refine ⟨ir, e.instruction.mpr ⟨made, ?_⟩, ?_⟩
    · rw [belongsTo_instruction wf made, parent]
      exact stays
    · rw [parent, e.id, block_self read]

theorem moduleSound {n : ModuleRef} {r : ModuleRecord} (wf : ctx.WellFormed)
    (read : ctx.module n = .ok r) (other : n ≠ m) : ctx'.ModuleSound n.index r := by
  have sound := wf.moduleSound read
  refine ⟨?_, sound.globalsNodup, ?_, sound.functionsNodup,
    fun h mem => e.holds (sound.names h mem)⟩
  · intro g mem
    obtain ⟨gr, known, home⟩ := wf.module_global read mem
    exact ⟨gr, e.global.mpr ⟨known, home ▸ other⟩, by rw [home, e.id, module_self read]⟩
  · intro f mem
    obtain ⟨fr, known, home⟩ := wf.module_function read mem
    exact ⟨fr, e.function.mpr ⟨known, home ▸ other⟩, by rw [home, e.id, module_self read]⟩

theorem wellFormed (wf : ctx.WellFormed) : ctx'.WellFormed where
  inner k shape stored t mem := by
    rw [e.entombs.types] at stored
    rw [e.id]
    exact wf.inner k shape stored t mem
  typeTable shape t := by
    rw [e.entombs.typeTable, e.shape]
    exact wf.typeTable shape t
  values k r stored := by
    by_cases gone : ctx.BelongsTo m ⟨ctx.id, k⟩
    · rw [e.entombs.values k gone] at stored
      obtain ⟨old, stored', rfl⟩ := Option.map_eq_some_iff.mp stored
      exact ⟨e.hasType (wf.values k old stored').type, trivial⟩
    · rw [e.entombs.kept k gone] at stored
      by_cases live : r.kind = .erased
      · refine ⟨e.hasType (wf.values k r stored).type, ?_⟩
        rw [live]
        trivial
      · have read : ctx.value ⟨ctx.id, k⟩ = .ok r := value_eq_ok.mpr ⟨rfl, stored, live⟩
        exact e.valueSound wf read gone
  blocks k r stored := by
    by_cases gone : ctx.BlockBelongsTo m ⟨ctx.id, k⟩
    · rw [e.entombs.blocks k gone] at stored
      obtain ⟨old, stored', rfl⟩ := Option.map_eq_some_iff.mp stored
      refine ⟨fun f h => ((wf.blocks k old stored').owner f h).trans e.id.symm, fun _ => rfl, ?_, ?_,
        List.nodup_nil⟩
      · simp [BlockRecord.tombstone]
      · simp [BlockRecord.tombstone]
    · rw [e.entombs.keptBlocks k gone] at stored
      cases live : r.erased with
      | true =>
        have sound := wf.blocks k r stored
        have empty := sound.tombstone live
        exact ⟨fun f h => (sound.owner f h).trans e.id.symm, sound.tombstone, by simp [live],
          by simp [empty], sound.nodup⟩
      | false =>
        have read : ctx.block ⟨ctx.id, k⟩ = .ok r := block_eq_ok.mpr ⟨rfl, stored, live⟩
        exact e.blockSound wf read gone
  modules k r stored := by
    have read : ctx'.module ⟨ctx'.id, k⟩ = .ok r := module_eq_ok.mpr ⟨rfl, stored⟩
    obtain ⟨old, other⟩ := e.module.mp read
    exact e.moduleSound wf old other
  operands i r made u mem := by
    obtain ⟨old, _⟩ := e.instruction.mp made
    rcases wf.operands i r old u mem with own | ⟨returned, br, read, loose⟩
    · exact .inl (own.trans e.id.symm)
    · exact .inr ⟨returned, br,
        e.block.mpr ⟨read, not_blockBelongsTo_detached read loose⟩, loose⟩
  constants key v entry := by
    obtain ⟨entry', stays⟩ := (e.constants key v).mp entry
    obtain ⟨r, read, key?⟩ := wf.constants key v entry'
    exact ⟨r, e.value.mpr ⟨read, stays⟩, key?⟩
  tabled v r key read key? := by
    obtain ⟨old, stays⟩ := e.value.mp read
    exact (e.constants key v).mpr ⟨wf.tabled v r key old key?, stays⟩

end Erases

end Context

namespace Build

variable {ctx ctx' : Context}

open Context

theorem takeModule_eq_ok {m : ModuleRef} {answer : ModuleRecord × Context} :
    ctx.takeModule m = .ok answer ↔ ∃ r, ctx.module m = .ok r ∧
      (r, { ctx with modules := ctx.modules.modify m.index fun _ => none }) = answer := by
  simp only [takeModule, Checked.bind_eq_ok, checkOwner_eq_ok, module_eq_ok]
  cases ctx.modules[m.index]? with
  | none => simp
  | some place => cases place <;> simp

theorem eraseModule_runs (wf : ctx.WellFormed) {m : ModuleRef} {r : ModuleRecord}
    (read : ctx.module m = .ok r) :
    ∃ ctx', (eraseModule m ctx).result = .ok ((), ctx') ∧ ctx.Erases m ctx' := by
  obtain ⟨ctx', run, erases⟩ := eraseContents_spec wf read
  refine ⟨ctx', ?_, erases⟩
  refine bind_eq_ok.mpr ⟨r, _, takeModule_eq_ok.mpr ⟨r, read, rfl⟩, ?_⟩
  refine bind_eq_ok.mpr ⟨(), _, emit_eq_ok.mpr rfl, ?_⟩
  exact Checked.map_eq_ok.mpr ⟨ctx', run, rfl⟩

theorem eraseModule_spec (wf : ctx.WellFormed) {m : ModuleRef} {u : Unit}
    (run : (eraseModule m ctx).result = .ok (u, ctx')) :
    (∃ r, ctx.module m = .ok r) ∧ ctx.Erases m ctx' ∧ ctx'.WellFormed := by
  obtain ⟨r, mid, taken, _⟩ := bind_eq_ok.mp run
  obtain ⟨r', read, _⟩ := takeModule_eq_ok.mp taken
  obtain ⟨ctx'', run', erases⟩ := eraseModule_runs wf read
  obtain rfl : ctx'' = ctx' := by simpa using run'.symm.trans run
  exact ⟨⟨r', read⟩, erases, erases.wellFormed wf⟩

end Build
end ModuleIR
