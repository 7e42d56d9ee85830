import ModuleIR.Proofs.Names.Insertion
import ModuleIR.Proofs.Names.Settling
import ModuleIR.Proofs.Steps.Survivors

set_option autoImplicit false

/-!
# Whom a step names

A step names what it is asked to name, and what it makes. `Context.NamesOnly` says that everything
else that is alive stays alive under the name it has, and that no void value comes to have a name. A
name that is entered may be changed to be unique, but what holds the name already is left alone: a
table releases the old name of the symbol that is renamed, and binds a name that is free.
-/
namespace ModuleIR

namespace Context

/-- A symbol that may have a name: a block, or a value that is not void. -/
def Nameable (ctx : Context) : Symbol → Prop
  | .value v => ∃ r shape, ctx.value v = .ok r ∧ ctx.shape r.type = .ok shape ∧ shape.isVoid = false
  | .block _ => True

def Solid (ctx : Context) : Prop := ∀ s n, ctx.symbolName s = .ok (some n) → ctx.Nameable s

/-- Nothing is named but these symbols. -/
structure NamesOnly (named : Symbol → Prop) (ctx ctx' : Context) : Prop where
  kept : ∀ s name, ctx.symbolName s = .ok name → ¬named s → ctx'.symbolName s = .ok name
  nameable : ∀ s, ctx.Nameable s → ¬named s → ctx'.Nameable s
  solid : ctx.Solid → ctx'.Solid

/-- Nothing is named. -/
abbrev NamesNone : Context → Context → Prop := NamesOnly fun _ => False

variable {ctx ctx' mid : Context} {named other : Symbol → Prop} {s x : Symbol} {v : ValueRef}
  {b : BlockRef} {f : FunctionRef} {scope : NameScope} {t t' : NameTable}
  {old bound name : Option String}

instance : Std.Refl (NamesOnly named) :=
  ⟨fun _ => ⟨fun _ _ live _ => live, fun _ full _ => full, fun solid => solid⟩⟩

instance : IsTrans Context (NamesOnly named) where
  trans _ _ _ first second :=
    ⟨fun s name live others => second.kept s name (first.kept s name live others) others,
      fun s full others => second.nameable s (first.nameable s full others) others,
      fun solid => second.solid (first.solid solid)⟩

theorem NamesOnly.mono (only : ctx.NamesOnly named ctx') (more : ∀ s, named s → other s) :
    ctx.NamesOnly other ctx' :=
  ⟨fun s name live others => only.kept s name live (mt (more s) others),
    fun s full others => only.nameable s full (mt (more s) others), only.solid⟩

/-- What is named but was not there before does not count. -/
theorem NamesOnly.drop (only : ctx.NamesOnly named ctx')
    (fresh : ∀ s name, named s → ctx.symbolName s ≠ .ok name) : ctx.NamesNone ctx' where
  kept s name live _ := only.kept s name live fun new => fresh s name new live
  nameable s full _ := by
    cases s with
    | block b => trivial
    | value v =>
      refine only.nameable _ full fun new => ?_
      obtain ⟨r, _, read, _⟩ := full
      exact fresh _ r.name new (valueName_eq_ok.mpr ⟨r, read, rfl⟩)
  solid := only.solid

/-! ### Changes that name nothing -/

/-- What a change of records has to keep. -/
theorem namesNone_of_records
    (shapes : ∀ t shape, ctx.shape t = .ok shape → ctx'.shape t = .ok shape)
    (values : ∀ v r, ctx.value v = .ok r → ∃ r', ctx'.value v = .ok r' ∧ r'.name = r.name ∧
      r'.type = r.type)
    (fresh : ∀ v r', ctx'.value v = .ok r' → (∃ r, ctx.value v = .ok r) ∨ r'.name = none)
    (blocks : ∀ b r, ctx.block b = .ok r → ∃ r', ctx'.block b = .ok r' ∧ r'.name = r.name) :
    ctx.NamesNone ctx' := by
  have kept s name (live : ctx.symbolName s = .ok name) : ctx'.symbolName s = .ok name := by
    cases s with
    | value v =>
      obtain ⟨r, read, same⟩ := valueName_eq_ok.mp live
      obtain ⟨r', read', same', _⟩ := values v r read
      exact valueName_eq_ok.mpr ⟨r', read', same'.trans same⟩
    | block b =>
      obtain ⟨r, read, same⟩ := symbolName_block.mp live
      obtain ⟨r', read', same'⟩ := blocks b r read
      exact symbolName_block.mpr ⟨r', read', same'.trans same⟩
  have nameable s (full : ctx.Nameable s) : ctx'.Nameable s := by
    cases s with
    | block b => trivial
    | value v =>
      obtain ⟨r, shape, read, shaped, full⟩ := full
      obtain ⟨r', read', _, type⟩ := values v r read
      exact ⟨r', shape, read', type ▸ shapes _ _ shaped, full⟩
  refine ⟨fun s name live _ => kept s name live, fun s full _ => nameable s full, ?_⟩
  intro solid s n live'
  cases s with
  | block b => trivial
  | value v =>
    obtain ⟨r', read', called⟩ := valueName_eq_ok.mp live'
    rcases fresh v r' read' with ⟨r, read⟩ | unnamed
    · obtain ⟨again, read'', same, _⟩ := values v r read
      obtain rfl := Checked.unique read' read''
      exact nameable _ (solid _ n (valueName_eq_ok.mpr ⟨r, read, same.symm.trans called⟩))
    · rw [unnamed] at called
      cases called

theorem namesNone_of_arenas (id : ctx'.id = ctx.id)
    (shapes : ∀ t shape, ctx.shape t = .ok shape → ctx'.shape t = .ok shape)
    (values : ctx'.values = ctx.values) (blocks : ctx'.blocks = ctx.blocks) : ctx.NamesNone ctx' :=
  namesNone_of_records shapes
    (fun v r read => ⟨r, (value_congr id values v).trans read, rfl, rfl⟩)
    (fun v r' read' => .inl ⟨r', (value_congr id values v).symm.trans read'⟩)
    (fun b r read => ⟨r, (block_congr id blocks b).trans read, rfl⟩)

theorem modifyModule_namesNone {m : ModuleRef} {g : ModuleRecord → ModuleRecord} :
    ctx.NamesNone (ctx.modifyModule m g) :=
  namesNone_of_arenas rfl (fun _ _ read => read) rfl rfl

theorem allocValue_namesNone {r : ValueRecord} (live : r.kind ≠ .erased) (unnamed : r.name = none) :
    ctx.NamesNone (ctx.allocValue r).2 := by
  refine namesNone_of_records (fun _ _ read => read) (fun v old read => ?_) (fun v r' read' => ?_)
    (fun b r read => ⟨r, read, rfl⟩)
  · exact ⟨old, (value_allocValue live).mpr (.inl read), rfl, rfl⟩
  · rcases (value_allocValue live).mp read' with old | ⟨_, rfl⟩
    · exact .inl ⟨r', old⟩
    · exact .inr unnamed

theorem modifyValue_namesNone {r : ValueRecord} {g : ValueRecord → ValueRecord}
    (read : ctx.value v = .ok r) (alive : (g r).kind ≠ .erased) (name : (g r).name = r.name)
    (type : (g r).type = r.type) : ctx.NamesNone (ctx.modifyValue v g) := by
  refine namesNone_of_records (fun _ _ read => read) (fun u old read' => ?_) (fun u r' read' => .inl ?_)
    (fun b r read => ⟨r, read, rfl⟩)
  · by_cases same : u = v
    · subst same
      obtain rfl := Checked.unique read read'
      exact ⟨g r, (value_modifyValue read alive).mpr (.inl ⟨rfl, rfl⟩), name, type⟩
    · exact ⟨old, (value_modifyValue read alive).mpr (.inr ⟨same, read'⟩), rfl, rfl⟩
  · rcases (value_modifyValue read alive).mp read' with ⟨rfl, _⟩ | ⟨_, kept⟩
    · exact ⟨r, read⟩
    · exact ⟨r', kept⟩

theorem modifyFunction_namesNone {fr : FunctionRecord} {g : FunctionRecord → FunctionRecord}
    (known : ctx.function f = .ok fr) : ctx.NamesNone (ctx.modifyFunction f g) := by
  obtain ⟨r, read, kind⟩ := function_eq_ok.mp known
  refine modifyValue_namesNone read ?_ ?_ ?_
  · simp [kind]
  · simp [kind]
  · simp [kind]

theorem modifyBlock_namesNone {r : BlockRecord} {g : BlockRecord → BlockRecord}
    (read : ctx.block b = .ok r) (alive : (g r).erased = false) (name : (g r).name = r.name) :
    ctx.NamesNone (ctx.modifyBlock b g) := by
  refine namesNone_of_records (fun _ _ read => read) (fun v r read => ⟨r, read, rfl, rfl⟩)
    (fun v r' read' => .inl ⟨r', read'⟩) (fun c old read' => ?_)
  by_cases same : c = b
  · subst same
    obtain rfl := Checked.unique read read'
    exact ⟨g r, (block_modifyBlock read alive).mpr (.inl ⟨rfl, rfl⟩), name⟩
  · exact ⟨old, (block_modifyBlock read alive).mpr (.inr ⟨same, read'⟩), rfl⟩

theorem pushBlock_namesNone (r : BlockRecord) :
    ctx.NamesNone { ctx with blocks := ctx.blocks.push r } := by
  refine namesNone_of_records (fun _ _ read => read) (fun v r read => ⟨r, read, rfl, rfl⟩)
    (fun v r' read' => .inl ⟨r', read'⟩) (fun c old read => ?_)
  obtain ⟨owner, stored, live⟩ := block_eq_ok.mp read
  exact ⟨old, block_eq_ok.mpr ⟨owner, getElem?_push_of_some stored, live⟩, rfl⟩

theorem placeBlock_namesNone {br : BlockRecord} {fr : FunctionRecord} {position : Nat}
    (read : ctx.block b = .ok br) (known : ctx.function f = .ok fr) :
    ctx.NamesNone (ctx.placeBlock b f position) := by
  have listed : ctx.NamesNone (ctx.modifyFunction f (·.withBlock b position)) :=
    modifyFunction_namesNone known
  have placed : (ctx.modifyFunction f (·.withBlock b position)).NamesNone
      (ctx.placeBlock b f position) :=
    modifyBlock_namesNone (r := br) read (block_eq_ok.mp read).2.2 rfl
  exact trans_of _ listed placed

theorem setTable_namesNone (held : ctx.TableOf t scope) :
    ctx.NamesNone (ctx.setTable t' scope) := by
  cases scope with
  | detached => exact held.elim
  | module m => exact modifyModule_namesNone
  | function f =>
    obtain ⟨r, read, names⟩ := held
    obtain ⟨fr, kind, _⟩ := function_of_names? names
    exact modifyFunction_namesNone (function_eq_ok.mpr ⟨r, read, kind⟩)

/-! ### One symbol is named -/

theorem nameable_setSymbolName (live : ctx.symbolName s = .ok old) (full : ctx.Nameable x) :
    (ctx.setSymbolName bound s).Nameable x := by
  cases x with
  | block c => trivial
  | value u =>
    obtain ⟨r, shape, read, shaped, full⟩ := full
    cases s with
    | block b => exact ⟨r, shape, read, shaped, full⟩
    | value v =>
      obtain ⟨r', read', _⟩ := valueName_eq_ok.mp live
      by_cases same : u = v
      · subst same
        obtain rfl := Checked.unique read read'
        exact ⟨_, shape, (value_setValueName read).mpr (.inl ⟨rfl, rfl⟩), shaped, full⟩
      · exact ⟨r, shape, (value_setValueName read').mpr (.inr ⟨same, read⟩), shaped, full⟩

theorem setSymbolName_namesOnly (live : ctx.symbolName s = .ok old)
    (nameable : bound ≠ none → ctx.Nameable s) :
    ctx.NamesOnly (· = s) (ctx.setSymbolName bound s) where
  kept x name called others := (symbolName_setSymbolName live).mpr (.inr ⟨others, called⟩)
  nameable x full _ := nameable_setSymbolName live full
  solid solid x n called := by
    apply nameable_setSymbolName live
    rcases (symbolName_setSymbolName live).mp called with ⟨rfl, filled⟩ | ⟨_, kept⟩
    · exact nameable (by simp [← filled])
    · exact solid x n kept

theorem WellFormed.block_of_inside (wf : ctx.WellFormed) (live : ctx.symbolName s = .ok name)
    (inside : ctx.Inside b s) : ∃ br, ctx.block b = .ok br := by
  cases s with
  | block c =>
    obtain rfl : c = b := inside
    obtain ⟨br, read, _⟩ := symbolName_block.mp live
    exact ⟨br, read⟩
  | value v =>
    obtain ⟨r, read, home⟩ := inside
    cases kind : r.kind with
    | instruction ir =>
      rw [kind] at home
      obtain rfl : ir.parent = b := Home.block.inj (Option.some.inj home)
      obtain ⟨br, held, _⟩ := wf.instruction_listed (instruction_eq_ok.mpr ⟨r, read, kind⟩)
      exact ⟨br, held⟩
    | _ =>
      rw [kind] at home
      cases home

theorem block_next_ne_ok {br : BlockRecord} : ctx.block ⟨ctx.id, ctx.blocks.size⟩ ≠ .ok br := by
  intro read
  have inside := (Array.getElem?_eq_some_iff.mp (block_eq_ok.mp read).2.1).1
  exact absurd inside (Nat.lt_irrefl _)

/-! ### Erasure -/

def SymbolBelongsTo (ctx : Context) (m : ModuleRef) : Symbol → Prop
  | .value v => ctx.BelongsTo m v
  | .block b => ctx.BlockBelongsTo m b

theorem Erases.symbolName_ne {m : ModuleRef} (e : ctx.Erases m ctx')
    (belongs : ctx.SymbolBelongsTo m s) : ctx'.symbolName s ≠ .ok name := by
  intro live
  cases s with
  | value v =>
    obtain ⟨r, read, _⟩ := valueName_eq_ok.mp live
    exact (e.value.mp read).2 belongs
  | block b =>
    obtain ⟨br, read, _⟩ := symbolName_block.mp live
    exact (e.block.mp read).2 belongs

theorem Erases.namesOnly {m : ModuleRef} (e : ctx.Erases m ctx') :
    ctx.NamesOnly (ctx.SymbolBelongsTo m) ctx' where
  kept s name live others := by
    cases s with
    | value v =>
      obtain ⟨r, read, same⟩ := valueName_eq_ok.mp live
      exact valueName_eq_ok.mpr ⟨r, e.value.mpr ⟨read, others⟩, same⟩
    | block b =>
      obtain ⟨r, read, same⟩ := symbolName_block.mp live
      exact symbolName_block.mpr ⟨r, e.block.mpr ⟨read, others⟩, same⟩
  nameable s full others := by
    cases s with
    | block b => trivial
    | value v =>
      obtain ⟨r, shape, read, shaped, full⟩ := full
      exact ⟨r, shape, e.value.mpr ⟨read, others⟩, (e.shape _).trans shaped, full⟩
  solid solid s n live' := by
    cases s with
    | block b => trivial
    | value v =>
      obtain ⟨r, read', called⟩ := valueName_eq_ok.mp live'
      obtain ⟨again, shape, read, shaped, full⟩ :=
        solid (.value v) n (valueName_eq_ok.mpr ⟨r, (e.value.mp read').1, called⟩)
      obtain rfl := Checked.unique (e.value.mp read').1 read
      exact ⟨r, shape, read', (e.shape _).trans shaped, full⟩

end Context

namespace Build

open Context

variable {ctx ctx' mid : Context} {scope : NameScope} {s : Symbol} {old bound : Option String}
  {name : String}

def NamesNone {α : Type} (step : Build α) : Prop := Obeys Context.NamesNone step

/-! ### Steps that name nothing -/

theorem interning_namesNone : Interning Context.NamesNone where
  types ctx shape _ := by
    unfold Context.internType
    split
    · exact refl_of _ ctx
    · exact namesNone_of_arenas rfl (fun _ _ read => shape_addType.mpr (.inl read)) rfl rfl
  constants ctx key r unnamed content := by
    unfold Context.internConstant
    split
    · exact refl_of _ ctx
    · have live : r.kind ≠ .erased := by
        intro erased
        rw [erased] at content
        cases content
      have tabled : (ctx.allocValue r).2.NamesNone (ctx.addConstant key r) :=
        namesNone_of_arenas rfl (fun _ _ read => read) rfl rfl
      exact trans_of _ (allocValue_namesNone live unnamed) tabled

theorem modifyGlobal_namesNone (g : GlobalRef) (change : GlobalRecord → GlobalRecord) :
    (modifyGlobal g change).NamesNone := by
  intro ctx _ ctx' run
  simp only [modifyGlobal, bind_eq_ok, read_eq_ok, change_eq_ok] at run
  obtain ⟨r, _, ⟨known, rfl⟩, rfl⟩ := run
  obtain ⟨value, read, _⟩ := global_eq_ok.mp known
  exact modifyValue_namesNone read (by simp) rfl rfl

theorem setInitializer_namesNone (g : GlobalRef) (initializer : Option ConstantRef) :
    (setInitializer g initializer).NamesNone := by
  cases initializer with
  | none => exact modifyGlobal_namesNone _ _
  | some init => exact .bind (.read _) fun _ => modifyGlobal_namesNone _ _

theorem modifyFunction_namesNone (f : FunctionRef) (change : FunctionRecord → FunctionRecord) :
    (modifyFunction f change).NamesNone := by
  intro ctx _ ctx' run
  simp only [modifyFunction, bind_eq_ok, read_eq_ok, change_eq_ok] at run
  obtain ⟨fr, _, ⟨known, rfl⟩, rfl⟩ := run
  exact Context.modifyFunction_namesNone known

theorem setCallConvention_namesNone (c : CallRef) (convention : CallingConv) :
    (setCallConvention c convention).NamesNone := by
  intro ctx _ ctx' run
  simp only [setCallConvention, bind_eq_ok, read_eq_ok] at run
  obtain ⟨⟨parent, operation⟩, _, ⟨known, rfl⟩, run⟩ := run
  obtain ⟨value, read, _⟩ := instruction_eq_ok.mp known
  cases operation with
  | call callee args former =>
    simp only [change_eq_ok] at run
    obtain rfl := run
    exact modifyValue_namesNone read (by simp) rfl rfl
  | _ =>
    obtain ⟨_, rfl⟩ := pure_eq_ok.mp run
    exact refl_of _ ctx

theorem createModule_namesNone (name : String) : (createModule name).NamesNone :=
  .bind (.emit _) fun _ => .update fun _ => namesNone_of_arenas rfl (fun _ _ read => read) rfl rfl

theorem allocValue_namesNone {r : ValueRecord} (live : r.kind ≠ .erased) (unnamed : r.name = none) :
    (allocValue r).NamesNone :=
  .bind (.read _) fun _ => .update fun _ => Context.allocValue_namesNone live unnamed

theorem allocArguments_namesNone (f : FunctionRef) (position : Nat) (types : List TypeRef) :
    (allocArguments f position types).NamesNone := by
  induction types generalizing position with
  | nil => exact .pure _
  | cons type rest ih =>
    exact .bind (allocValue_namesNone (by simp) rfl) fun _ => .bind (ih (position + 1)) fun _ => .pure _

/-! ### Steps that name one symbol -/

theorem filled_of_bound (run : (bindIn scope old name s ctx).result = .ok (bound, mid))
    (some : bound ≠ none) : name.isEmpty = false := by
  rw [← Bool.not_eq_true]
  intro empty
  apply some
  rcases bindIn_eq_ok run with ⟨_, rfl, _⟩ | ⟨t, t', _, rebound, _⟩
  · exact if_pos empty
  · rw [NameTable.rebind_eq, if_pos empty] at rebound
    exact (Prod.mk.inj rebound).1.symm

/-- A symbol is named by entering a name in a table, and putting what was entered in its record. -/
theorem enter_namesOnly {current : Option String} (live : ctx.symbolName s = .ok current)
    (nameable : name.isEmpty = false → ctx.Nameable s)
    (run : (bindIn scope old name s ctx).result = .ok (bound, mid)) :
    ctx.NamesOnly (· = s) (mid.setSymbolName bound s) := by
  have full := fun some => nameable (filled_of_bound run some)
  rcases bindIn_eq_ok run with ⟨_, _, rfl⟩ | ⟨t, t', held, _, rfl⟩
  · exact setSymbolName_namesOnly live full
  · have tabled : ctx.NamesNone (ctx.setTable t' scope) := setTable_namesNone held
    have full' some := tabled.nameable s (full some) not_false
    exact trans_of _ (tabled.mono fun _ => False.elim)
      (setSymbolName_namesOnly (symbolName_setTable held live) full')

theorem setValueName_nameable {v : ValueRef} {u : Unit}
    (run : (setValueName v name ctx).result = .ok (u, ctx')) (filled : name.isEmpty = false) :
    ctx.Nameable (.value v) := by
  simp only [setValueName_eq, bind_eq_ok, read_eq_ok] at run
  obtain ⟨scope, _, ⟨_, rfl⟩, record, _, ⟨read, rfl⟩, run⟩ := run
  simp only [filled, Bool.not_false, if_true, bind_eq_ok, read_eq_ok, require_eq_ok] at run
  obtain ⟨shape, _, ⟨shaped, rfl⟩, _, _, ⟨full, rfl⟩, _⟩ := run
  exact ⟨record, shape, read, shaped, by simpa using full⟩

theorem setValueName_namesOnly (v : ValueRef) (name : String) :
    Obeys (Context.NamesOnly (· = .value v)) (setValueName v name) := by
  intro ctx _ ctx' run
  obtain ⟨scope, record, bound, mid, _, read, entered, rfl⟩ := setValueName_parts run
  have live : ctx.symbolName (.value v) = .ok record.name := valueName_eq_ok.mpr ⟨record, read, rfl⟩
  exact enter_namesOnly live (setValueName_nameable run) entered

theorem setBlockName_namesOnly (b : BlockRef) (name : String) :
    Obeys (Context.NamesOnly (· = .block b)) (setBlockName b name) := by
  intro ctx _ ctx' run
  obtain ⟨record, bound, mid, read, entered, rfl⟩ := setBlockName_parts run
  have live : ctx.symbolName (.block b) = .ok record.name := symbolName_block.mpr ⟨record, read, rfl⟩
  exact enter_namesOnly live (fun _ => trivial) entered

/-! ### Steps that name what they make -/

theorem namesNone_of_made {v : ValueRef} (last : v = ⟨ctx.id, ctx.values.size⟩)
    (added : ctx.NamesNone mid) (only : mid.NamesOnly (· = .value v) ctx') : ctx.NamesNone ctx' := by
  refine (trans_of _ (added.mono fun _ => False.elim) only).drop ?_
  rintro s name rfl live
  obtain ⟨r, read, _⟩ := valueName_eq_ok.mp live
  exact value_next_ne_ok (last ▸ read)

theorem enterValue_namesOnly {m : ModuleRef} {v : ValueRef} {r : ValueRecord} {shape : Shape}
    (read : ctx.value v = .ok r) (shaped : ctx.shape r.type = .ok shape)
    (full : shape.isVoid = false)
    (run : (rebindInModule m old name (.value v) ctx).result = .ok (bound, mid)) :
    ctx.NamesOnly (· = .value v) (mid.setValueName v bound) :=
  have entered : (bindIn (.module m) old name (.value v) ctx).result = .ok (bound, mid) := run
  enter_namesOnly (valueName_eq_ok.mpr ⟨r, read, rfl⟩) (fun _ => ⟨r, shape, read, shaped, full⟩)
    entered

theorem createGlobal_namesNone (wf : ctx.WellFormed) {m : ModuleRef} {spec : GlobalSpec}
    {g : GlobalRef} (run : (createGlobal m spec ctx).result = .ok (g, ctx')) :
    ctx.NamesNone ctx' := by
  obtain ⟨position, ty, mid, bound, last, _, _, typed, rfl, table, rfl⟩ := createGlobal_parts run
  obtain ⟨_, _, shaped, _⟩ := pointerType_spec wf typed
  have pointed : ctx.NamesNone mid := interning_namesNone.pointerType _ _ ctx ty mid typed
  have allocated : mid.NamesNone
      (mid.allocValue { type := ty.type, kind := .global (spec.record m) }).2 :=
    Context.allocValue_namesNone (by simp) rfl
  have added : mid.NamesNone (mid.addGlobal ty.type (spec.record m) position) :=
    trans_of _ allocated modifyModule_namesNone
  have entered := enterValue_namesOnly value_addGlobal (addGlobal_grows.shape shaped) rfl table
  exact trans_of _ pointed (namesNone_of_made rfl added entered)

theorem globalString_namesNone (wf : ctx.WellFormed) {m : ModuleRef} {text : String}
    {c : ConstantRef} (run : (globalString m text name ctx).result = .ok (c, ctx')) :
    ctx.NamesNone ctx' := by
  simp only [globalString, bind_eq_ok, read_eq_ok] at run
  obtain ⟨init, _, stored, type, _, ⟨_, rfl⟩, g, _, made, word, _, typed, zero, _, counted, run⟩ := run
  obtain ⟨_, wf', _⟩ := constantString_spec wf stored
  have filled := interning_namesNone.constantString _ _ _ _ _ stored
  have named := createGlobal_namesNone wf' made
  have pointed := interning_namesNone.elementPtr _ _ _ _ _ _ run
  have zeroed := trans_of _ (interning_namesNone.integerType _ _ _ _ typed)
    (interning_namesNone.constantSigned _ _ _ _ _ counted)
  exact trans_of _ filled (trans_of _ named (trans_of _ zeroed pointed))

theorem createFunction_namesNone (wf : ctx.WellFormed) {signature : FunctionTypeRef}
    {linkage : Linkage} {m : ModuleRef} {f : FunctionRef}
    (run : (createFunction signature linkage name m ctx).result = .ok (f, ctx')) :
    ctx.NamesNone ctx' := by
  obtain ⟨ty, mid, result, params, variadic, args, filled, mr, bound, last, typed, rfl, signed, argued,
    read, table, rfl⟩ := createFunction_parts run
  obtain ⟨_, wf₁, shaped, _⟩ := pointerType_spec wf typed
  have pointed : ctx.NamesNone mid := interning_namesNone.pointerType _ _ ctx ty mid typed
  have allocated : mid.NamesNone (mid.allocValue
      { type := ty.type, kind := .function { module := m, signature, linkage } }).2 :=
    Context.allocValue_namesNone (by simp) rfl
  have extended := allocArguments_namesNone _ _ _ _ args filled argued
  have adds := allocArguments_spec (fun t mem => (allocValue_grows _).hasType
    (wf₁.hasType_inner signed (List.mem_cons_of_mem _ mem))) argued
  have made : filled.value ⟨mid.id, mid.values.size⟩ = .ok
      { type := ty.type, kind := .function { module := m, signature, linkage } } :=
    adds.value ((value_allocValue (by simp)).mpr (.inr ⟨rfl, rfl⟩))
  have filledIn : filled.NamesNone
      (filled.modifyFunction ⟨⟨mid.id, mid.values.size⟩⟩ ({ · with args })) :=
    Context.modifyFunction_namesNone (function_eq_ok.mpr ⟨_, made, rfl⟩)
  have listed : filled.NamesNone (mid.addFunction filled m args) :=
    trans_of _ filledIn modifyModule_namesNone
  have added : mid.NamesNone (mid.addFunction filled m args) :=
    trans_of _ allocated (trans_of _ extended listed)
  have entered :=
    enterValue_namesOnly (value_addFunction adds) ((addFunction_grows adds).shape shaped) rfl table
  exact trans_of _ pointed (namesNone_of_made rfl added entered)

theorem append_namesNone (b : BlockRef) (type : TypeRef) (operation : Operation) (name : String) :
    (append b type operation name).NamesNone := by
  intro ctx i ctx' run
  obtain ⟨⟨br, read⟩, rfl, last⟩ := append_parts run
  have allocated : ctx.NamesNone (ctx.allocValue { type, kind := .instruction ⟨b, operation⟩ }).2 :=
    Context.allocValue_namesNone (by simp) rfl
  have read' : (ctx.allocValue { type, kind := .instruction ⟨b, operation⟩ }).2.block b = .ok br :=
    (block_congr rfl rfl b).trans read
  have added : ctx.NamesNone (ctx.addInstruction b type operation) :=
    trans_of _ allocated (modifyBlock_namesNone read' (block_eq_ok.mp read).2.2 rfl)
  rcases last with ⟨_, rfl⟩ | ⟨_, entered⟩
  · exact added
  · exact namesNone_of_made rfl added (setValueName_namesOnly _ _ _ _ _ entered)

theorem createCall_namesNone (callee : ValueRef) (args : List ValueRef) (name : String)
    (b : BlockRef) : (createCall callee args name b).NamesNone :=
  .bind (.read _) fun _ => .bind (.read _) fun _ => .bind (.read _) fun _ => .bind (.read _) fun _ =>
    .bind (append_namesNone _ _ _ _) fun _ => .pure _

theorem createReturn_namesNone (value : Option ValueRef) (b : BlockRef) :
    (createReturn value b).NamesNone := by
  have made : (do
      let void ← voidType
      return (⟨(← append b void (.ret value) "").value⟩ : ReturnRef) : Build ReturnRef).NamesNone :=
    .bind (interning_namesNone.internType rfl) fun _ =>
      .bind (append_namesNone _ _ _ _) fun _ => .pure _
  refine .bind (.read _) fun _ => ?_
  cases value with
  | none => exact made
  | some v => exact .bind (.read _) fun _ => made

theorem createBranch_namesNone (target b : BlockRef) : (createBranch target b).NamesNone :=
  .bind (interning_namesNone.internType rfl) fun _ => .bind (append_namesNone _ _ _ _) fun _ => .pure _

theorem createCondBranch_namesNone (cond : ValueRef) (ifTrue ifFalse b : BlockRef) :
    (createCondBranch cond ifTrue ifFalse b).NamesNone :=
  .bind (.read _) fun _ => .bind (.read _) fun _ => .bind (interning_namesNone.internType rfl) fun _ =>
    .bind (append_namesNone _ _ _ _) fun _ => .pure _

/-! ### Steps that place a block -/

/-- The name that a symbol brings is entered in the table of a function. -/
def adopt (f : FunctionRef) : Symbol → Build Unit
  | .block b => adoptBlockName f b
  | .value v => adoptNames f [⟨v⟩]

def adoptAll (f : FunctionRef) : List Symbol → Build Unit
  | [] => return ()
  | s :: rest => do adopt f s; adoptAll f rest

/-- What is in a block, in the order in which the names are entered. -/
def entrants (b : BlockRef) (is : List InstructionRef) : List Symbol :=
  .block b :: is.map (.value ·.value)

variable {f : FunctionRef} {b : BlockRef}

theorem adoptAll_append {ss rest : List Symbol} {u : Unit} :
    (adoptAll f (ss ++ rest) ctx).result = .ok (u, ctx') ↔
      ∃ mid, (adoptAll f ss ctx).result = .ok ((), mid) ∧
        (adoptAll f rest mid).result = .ok (u, ctx') := by
  induction ss generalizing ctx with
  | nil => simp [adoptAll]
  | cons s ss ih =>
    simp only [List.cons_append, adoptAll, bind_eq_ok]
    constructor
    · rintro ⟨_, turn, first, run⟩
      obtain ⟨mid, others, last⟩ := ih.mp run
      exact ⟨mid, ⟨(), turn, first, others⟩, last⟩
    · rintro ⟨mid, ⟨_, turn, first, others⟩, last⟩
      exact ⟨(), turn, first, ih.mpr ⟨mid, others, last⟩⟩

theorem adoptNames_eq_ok {is : List InstructionRef} {u : Unit} :
    (adoptNames f is ctx).result = .ok (u, ctx') ↔
      (adoptAll f (is.map (.value ·.value)) ctx).result = .ok (u, ctx') := by
  induction is generalizing ctx with
  | nil => rfl
  | cons i rest ih =>
    have first : adoptNames f (i :: rest) = adoptNames f ([i] ++ rest) := rfl
    rw [first, adoptNames_append, List.map_cons, adoptAll, bind_eq_ok]
    simp only [ih]
    exact ⟨fun ⟨mid, run, last⟩ => ⟨(), mid, run, last⟩, fun ⟨_, mid, run, last⟩ => ⟨mid, run, last⟩⟩

theorem adopt_eq_ok {u : Unit} (run : (adopt f s ctx).result = .ok (u, ctx')) :
    (ctx.symbolName s = .ok none ∧ ctx' = ctx) ∨
      ∃ n bound mid, ctx.symbolName s = .ok (some n) ∧
        (bindIn (.function f) none n s ctx).result = .ok (bound, mid) ∧
        ctx' = mid.setSymbolName bound s := by
  cases s with
  | block b =>
    simp only [adopt, adoptBlockName, bind_eq_ok, read_eq_ok] at run
    obtain ⟨br, _, ⟨read, rfl⟩, run⟩ := run
    cases name : br.name with
    | none =>
      rw [name] at run
      obtain ⟨_, rfl⟩ := pure_eq_ok.mp run
      exact .inl ⟨symbolName_block.mpr ⟨br, read, name⟩, rfl⟩
    | some n =>
      simp only [name, bind_eq_ok, change_eq_ok] at run
      obtain ⟨bound, mid, entered, rfl⟩ := run
      exact .inr ⟨n, bound, mid, symbolName_block.mpr ⟨br, read, name⟩, entered, rfl⟩
  | value v =>
    simp only [adopt, adoptNames, bind_eq_ok, read_eq_ok] at run
    obtain ⟨name, _, ⟨named, rfl⟩, run⟩ := run
    cases name with
    | none =>
      obtain ⟨_, rfl⟩ := pure_eq_ok.mp run
      exact .inl ⟨named, rfl⟩
    | some n =>
      simp only [bind_eq_ok, change_eq_ok, pure_eq_ok] at run
      obtain ⟨bound, mid, entered, _, _, rfl, _, rfl⟩ := run
      exact .inr ⟨n, bound, mid, named, entered, rfl⟩

theorem adopt_namesOnly (s : Symbol) {u : Unit} (solid : ctx.Solid)
    (run : (adopt f s ctx).result = .ok (u, ctx')) : ctx.NamesOnly (· = s) ctx' := by
  rcases adopt_eq_ok run with ⟨_, rfl⟩ | ⟨n, bound, mid, live, entered, rfl⟩
  · exact refl_of _ ctx'
  · exact enter_namesOnly live (fun _ => solid s n live) entered

theorem adoptAll_namesOnly {ss : List Symbol} {u : Unit} (solid : ctx.Solid)
    (run : (adoptAll f ss ctx).result = .ok (u, ctx')) : ctx.NamesOnly (· ∈ ss) ctx' := by
  induction ss generalizing ctx with
  | nil =>
    obtain ⟨_, rfl⟩ := pure_eq_ok.mp run
    exact refl_of _ ctx
  | cons s rest ih =>
    obtain ⟨_, mid, first, run⟩ := bind_eq_ok.mp run
    have only := adopt_namesOnly s solid first
    have others := ih (only.solid solid) run
    exact trans_of _ (only.mono fun x same => same ▸ List.mem_cons_self)
      (others.mono fun x mem => List.mem_cons_of_mem s mem)

theorem mem_entrants (wf : ctx.WellFormed) {br : BlockRecord} (read : ctx.block b = .ok br) :
    s ∈ entrants b br.instructions ↔ ctx.Inside b s := by
  rw [wf.inside_iff read, entrants, List.mem_cons, List.mem_map]
  exact or_congr_right ⟨fun ⟨i, mem, same⟩ => ⟨i, mem, same.symm⟩,
    fun ⟨i, mem, same⟩ => ⟨i, mem, same.symm⟩⟩

theorem block_of_adopt {br : BlockRecord} {u : Unit} (read : ctx.block b = .ok br)
    (run : (adopt f (.block b) ctx).result = .ok (u, ctx')) :
    ∃ br', ctx'.block b = .ok br' ∧ br'.instructions = br.instructions := by
  rcases adopt_eq_ok run with ⟨_, rfl⟩ | ⟨n, bound, mid, _, entered, rfl⟩
  · exact ⟨br, read, rfl⟩
  · rcases bindIn_eq_ok entered with ⟨impossible, _⟩ | ⟨t, t', _, _, rfl⟩
    · cases impossible
    · exact ⟨_, (block_setBlockName (block_setTable.trans read)).mpr (.inl ⟨rfl, rfl⟩), rfl⟩

/-- The names that an inserted block brings are entered in order once it is placed. -/
theorem insertBlock_adopts {before : Option BlockRef} {u : Unit}
    (run : (insertBlock b f before ctx).result = .ok (u, ctx')) :
    ∃ br fr position, ctx.block b = .ok br ∧ br.parent = none ∧ ctx.function f = .ok fr ∧
      ctx.blockPosition f before = .ok position ∧
      (adoptAll f (entrants b br.instructions) (ctx.placeBlock b f position)).result =
        .ok ((), ctx') := by
  obtain ⟨br, fr, position, mid, br', read, loose, known, found, _, _, entered, read', adopted⟩ :=
    insertBlock_parts run
  refine ⟨br, fr, position, read, loose, known, found, bind_eq_ok.mpr ⟨(), mid, entered, ?_⟩⟩
  have placed : (ctx.placeBlock b f position).block b = .ok { br with parent := some f } :=
    (block_placeBlock read).mpr (.inl ⟨rfl, rfl⟩)
  obtain ⟨again, read'', same⟩ := block_of_adopt placed entered
  obtain rfl := Checked.unique read' read''
  rw [same] at adopted
  exact adoptNames_eq_ok.mp adopted

theorem insertBlock_namesOnly (wf : ctx.WellFormed) (solid : ctx.Solid) {before : Option BlockRef}
    {u : Unit} (run : (insertBlock b f before ctx).result = .ok (u, ctx')) :
    ctx.NamesOnly (ctx.Inside b) ctx' := by
  obtain ⟨br, fr, position, read, _, known, _, adopted⟩ := insertBlock_adopts run
  have placed : ctx.NamesNone (ctx.placeBlock b f position) := placeBlock_namesNone read known
  have named := adoptAll_namesOnly (placed.solid solid) adopted
  exact trans_of _ (placed.mono fun _ => False.elim) (named.mono fun s => (mem_entrants wf read).mp)

theorem createBlock_namesNone (wf : ctx.WellFormed) (solid : ctx.Solid)
    {parent : Option FunctionRef} {before : Option BlockRef}
    (run : (createBlock name parent before ctx).result = .ok (b, ctx')) : ctx.NamesNone ctx' := by
  obtain ⟨b', grown, made, run⟩ := bind_eq_ok.mp run
  obtain ⟨rfl, rfl⟩ := Prod.mk.inj (update_eq_ok.mp made)
  obtain ⟨_, wf'⟩ := addBlock_spec wf (looseName name)
  have added : ctx.NamesNone { ctx with blocks := ctx.blocks.push { name := looseName name } } :=
    pushBlock_namesNone _
  cases parent with
  | none =>
    simp only [bind_eq_ok, require_eq_ok, pure_eq_ok] at run
    obtain ⟨_, _, ⟨_, rfl⟩, rfl, rfl⟩ := run
    exact added
  | some f =>
    simp only [bind_eq_ok, pure_eq_ok] at run
    obtain ⟨_, last, inserted, rfl, rfl⟩ := run
    have placed := insertBlock_namesOnly wf' (added.solid solid) inserted
    refine (trans_of _ (added.mono fun _ => False.elim) placed).drop fun s name inside live => ?_
    have old : ctx.Inside ⟨ctx.id, ctx.blocks.size⟩ s := by
      cases s with
      | block c => exact inside
      | value v => exact inside
    obtain ⟨br, read⟩ := wf.block_of_inside live old
    exact block_next_ne_ok read

end Build
end ModuleIR
