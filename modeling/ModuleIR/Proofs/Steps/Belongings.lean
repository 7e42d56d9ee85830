import ModuleIR.Proofs.Steps.Survivors

set_option autoImplicit false

/-!
# What a module owns

The values that go with a module, read off its record: its globals and functions, the arguments of
its functions, the instructions of their blocks, and pointer arithmetic whose chain of bases ends in
one of its globals and functions. `owns_iff` says that these are the values at home in the module,
which `Erases` speaks about. The table of constants loses that pointer arithmetic and nothing else.
-/
namespace ModuleIR

namespace Context

/-- The chain of bases ends in a global or function of the module. -/
inductive RootedIn (ctx : Context) (mr : ModuleRecord) : ValueRef → Prop
  | global {g : GlobalRef} (listed : g ∈ mr.globals) : RootedIn ctx mr g.value
  | function {f : FunctionRef} (listed : f ∈ mr.functions) : RootedIn ctx mr f.value
  | elementPtr {v : ValueRef} {r : ValueRecord} {e : ElementPtrRecord} (read : ctx.value v = .ok r)
      (kind : r.kind = .elementPtr e) (base : RootedIn ctx mr e.base) : RootedIn ctx mr v

def OwnsPointer (ctx : Context) (mr : ModuleRecord) (v : ValueRef) : Prop :=
  ∃ r e, ctx.value v = .ok r ∧ r.kind = .elementPtr e ∧ ctx.RootedIn mr e.base

inductive Owns (ctx : Context) (mr : ModuleRecord) : ValueRef → Prop
  | global {g : GlobalRef} (listed : g ∈ mr.globals) : Owns ctx mr g.value
  | function {f : FunctionRef} (listed : f ∈ mr.functions) : Owns ctx mr f.value
  | argument {f : FunctionRef} {fr : FunctionRecord} {a : ArgumentRef} (listed : f ∈ mr.functions)
      (known : ctx.function f = .ok fr) (mem : a ∈ fr.args) : Owns ctx mr a.value
  | instruction {f : FunctionRef} {fr : FunctionRecord} {b : BlockRef} {br : BlockRecord}
      {i : InstructionRef} (listed : f ∈ mr.functions) (known : ctx.function f = .ok fr)
      (placed : b ∈ fr.blocks) (read : ctx.block b = .ok br) (mem : i ∈ br.instructions) :
      Owns ctx mr i.value
  | elementPtr {v : ValueRef} (pointer : ctx.OwnsPointer mr v) : Owns ctx mr v

def OwnsBlock (ctx : Context) (mr : ModuleRecord) (b : BlockRef) : Prop :=
  ∃ f fr, f ∈ mr.functions ∧ ctx.function f = .ok fr ∧ b ∈ fr.blocks

variable {ctx ctx' : Context} {m : ModuleRef} {mr : ModuleRecord} {v : ValueRef} {b : BlockRef}

theorem Anchored.not_function (wf : ctx.WellFormed) {f : FunctionRef} {r : ValueRecord}
    (home : ctx.Anchored v (.function f)) (read : ctx.value v = .ok r) :
    r.kind.isConstant = false := by
  generalize same : Anchor.function f = anchor at home
  induction home generalizing r with
  | @elementPtr v r' e anchor read' kind base ih =>
    obtain ⟨record, held, constant⟩ := (wf.elementPtrSound read' kind).base
    rw [ih held same] at constant
    cases constant
  | argument read' kind | placed read' kind | detached read' kind =>
    rw [Checked.unique read read', kind]
    rfl
  | int | bytes | global | function => cases same

section Live

variable (wf : ctx.WellFormed) (live : ctx.module m = .ok mr)
include wf live

theorem rootedIn_iff : ctx.RootedIn mr v ↔ ctx.Anchored v (.module m) := by
  constructor
  · intro rooted
    induction rooted with
    | global listed =>
      obtain ⟨gr, known, home⟩ := wf.module_global live listed
      obtain ⟨value, held, kind⟩ := global_eq_ok.mp known
      exact home ▸ .global held kind
    | function listed =>
      obtain ⟨fr, known, home⟩ := wf.module_function live listed
      obtain ⟨value, held, kind⟩ := function_eq_ok.mp known
      exact home ▸ .function held kind
    | elementPtr read kind base ih => exact .elementPtr read kind ih
  · intro home
    generalize same : Anchor.module m = anchor at home
    induction home with
    | elementPtr read kind base ih => exact .elementPtr read kind (ih same)
    | @global v r g read kind =>
      have known : ctx.global ⟨v⟩ = .ok g := global_eq_ok.mpr ⟨r, read, kind⟩
      obtain ⟨mr', live', listed⟩ := wf.global_listed known
      rw [← Anchor.module.inj same] at live'
      obtain rfl := Checked.unique live live'
      exact .global listed
    | @function v r f read kind =>
      have known : ctx.function ⟨v⟩ = .ok f := function_eq_ok.mpr ⟨r, read, kind⟩
      exact .function (function_mem_of_home wf live known (Anchor.module.inj same).symm)
    | int | bytes | argument | placed | detached => cases same

theorem ownsPointer_iff : ctx.OwnsPointer mr v ↔
    ctx.BelongsTo m v ∧ ∃ r e, ctx.value v = .ok r ∧ r.kind = .elementPtr e := by
  constructor
  · rintro ⟨r, e, read, kind, rooted⟩
    have home := (rootedIn_iff wf live).mp rooted
    exact ⟨.inl (.elementPtr read kind home), r, e, read, kind⟩
  · rintro ⟨belongs, r, e, read, kind⟩
    refine ⟨r, e, read, kind, (rootedIn_iff wf live).mpr ?_⟩
    rcases (belongsTo_elementPtr read kind).mp belongs with home | ⟨f, fr, home, _⟩
    · exact home
    · obtain ⟨record, held, constant⟩ := (wf.elementPtrSound read kind).base
      rw [home.not_function wf held] at constant
      cases constant

/-- What a module owns is what is at home in it. -/
theorem owns_iff : ctx.Owns mr v ↔ ctx.BelongsTo m v := by
  constructor
  · intro owned
    cases owned with
    | global listed =>
      obtain ⟨gr, known, home⟩ := wf.module_global live listed
      exact (belongsTo_global known).mpr home
    | function listed =>
      obtain ⟨fr, known, home⟩ := wf.module_function live listed
      exact (belongsTo_function known).mpr home
    | argument listed known mem =>
      obtain ⟨fr, known', home⟩ := wf.module_function live listed
      obtain ⟨ar, argued, parent⟩ := wf.function_argument known mem
      obtain ⟨value, held, kind⟩ := argument_eq_ok.mp argued
      exact (belongsTo_inside (parent ▸ .argument held kind) known').mpr home
    | instruction listed known placed read mem =>
      obtain ⟨fr, known', home⟩ := wf.module_function live listed
      obtain ⟨ir, made, parent⟩ := wf.block_instruction read mem
      obtain ⟨br, read', owner⟩ := wf.function_block known placed
      rw [belongsTo_instruction wf made, parent, blockBelongsTo_placed read' owner known']
      exact home
    | elementPtr pointer => exact ((ownsPointer_iff wf live).mp pointer).1
  · intro belongs
    obtain ⟨r, read⟩ := belongs.live
    by_cases pointer : ∃ e, r.kind = .elementPtr e
    · obtain ⟨e, kind⟩ := pointer
      exact .elementPtr ((ownsPointer_iff wf live).mpr ⟨belongs, r, e, read, kind⟩)
    · have content : ∀ r' e, ctx.value v = .ok r' → r'.kind ≠ .elementPtr e :=
        ne_elementPtr_of_read read fun e kind => pointer ⟨e, kind⟩
      have self := value_self read
      rw [← self] at belongs content ⊢
      rcases (walk_erases_iff wf live).mpr ⟨belongs, content⟩ with ⟨f, listed, held⟩ |
        ⟨g, listed, same⟩
      · rcases held with same | ⟨fr, known, ⟨a, mem, same⟩ | ⟨b, placed, br, read', i, mem, same⟩⟩
        · obtain ⟨fr, known, _⟩ := wf.module_function live listed
          obtain ⟨_, held, _⟩ := function_eq_ok.mp known
          rw [← same, value_self held]
          exact .function listed
        · obtain ⟨ar, argued, _⟩ := wf.function_argument known mem
          obtain ⟨_, held, _⟩ := argument_eq_ok.mp argued
          rw [← same, value_self held]
          exact .argument listed known mem
        · obtain ⟨ir, made, _⟩ := wf.block_instruction read' mem
          obtain ⟨_, held, _⟩ := instruction_eq_ok.mp made
          rw [← same, value_self held]
          exact .instruction listed known placed read' mem
      · obtain ⟨gr, known, _⟩ := wf.module_global live listed
        obtain ⟨_, held, _⟩ := global_eq_ok.mp known
        rw [← same, value_self held]
        exact .global listed

theorem ownsBlock_iff : ctx.OwnsBlock mr b ↔ ctx.BlockBelongsTo m b := by
  constructor
  · rintro ⟨f, fr, listed, known, placed⟩
    obtain ⟨fr', known', home⟩ := wf.module_function live listed
    obtain ⟨br, read, parent⟩ := wf.function_block known placed
    exact (blockBelongsTo_placed read parent known').mpr home
  · rintro ⟨br, f, fr, read, parent, known, home⟩
    obtain ⟨fr', known', placed⟩ := wf.block_listed read parent
    exact ⟨f, fr', function_mem_of_home wf live known home, known', placed⟩

theorem ownsPointer_of_entry {key : ConstantKey} (entry : (key, v) ∈ ctx.constantTable.entries) :
    ctx.OwnsPointer mr v ↔ ctx.BelongsTo m v := by
  rw [ownsPointer_iff wf live]
  refine and_iff_left_of_imp fun belongs => ?_
  obtain ⟨r, read, key?⟩ := wf.constants key v entry
  cases kind : r.kind with
  | int n => exact absurd belongs (not_belongsTo_free (.int read kind))
  | bytes content => exact absurd belongs (not_belongsTo_free (.bytes read kind))
  | elementPtr e => exact ⟨r, e, read, kind⟩
  | _ => simp [kind, ValueKind.key?] at key?

end Live

/-! ### The table of constants -/

theorem constantTable_eraseBlockTree {c c' : Context} (run : c.eraseBlockTree b = .ok c') :
    c'.constantTable = c.constantTable := by
  obtain ⟨r, _, run⟩ := Checked.bind_eq_ok.mp run
  obtain ⟨emptied, walked, erased⟩ := Checked.bind_eq_ok.mp run
  have block : c'.constantTable = emptied.constantTable := by
    rw [(eraseBlock_eq_ok.mp erased).2.2]
    rfl
  exact block.trans (constantTable_foldlM (fun _ _ _ => constantTable_eraseValue) walked)

theorem constantTable_eraseFunctionTree {c c' : Context} {f : FunctionRef}
    (run : c.eraseFunctionTree f = .ok c') : c'.constantTable = c.constantTable := by
  obtain ⟨r, _, run⟩ := Checked.bind_eq_ok.mp run
  obtain ⟨bodiless, walked, run⟩ := Checked.bind_eq_ok.mp run
  obtain ⟨bare, stripped, erased⟩ := Checked.bind_eq_ok.mp run
  calc c'.constantTable
    _ = bare.constantTable := constantTable_eraseValue erased
    _ = bodiless.constantTable := constantTable_foldlM (fun _ _ _ => constantTable_eraseValue) stripped
    _ = c.constantTable := constantTable_foldlM (fun _ _ _ => constantTable_eraseBlockTree) walked

theorem entries_purgeWithin {c c' : Context} {rounds : Nat} (run : c.purgeWithin rounds = .ok c') :
    c'.constantTable.entries.Sublist c.constantTable.entries := by
  induction rounds generalizing c with
  | zero =>
    obtain rfl := Except.ok.inj run
    exact .refl _
  | succ rounds ih =>
    obtain ⟨dead, _, run⟩ := Checked.bind_eq_ok.mp run
    split at run
    · obtain rfl := Except.ok.inj run
      exact .refl _
    · obtain ⟨left, dropped, run⟩ := Checked.bind_eq_ok.mp run
      have round := ih run
      rw [entries_dropConstants dropped] at round
      exact round.trans List.filter_sublist

def walkContents (ctx : Context) (record : ModuleRecord) : Checked Context := do
  let functionless ← record.functions.foldlM eraseFunctionTree ctx
  record.globals.foldlM (fun c g => c.eraseValue g.value) functionless

theorem eraseContents_eq (c : Context) (mr : ModuleRecord) :
    c.eraseContents mr = c.walkContents mr >>= purgeConstants := by
  rw [eraseContents, walkContents, bind_assoc]

/-- The walk leaves the table of constants to the purge. -/
theorem constantTable_walkContents {c c' : Context} (run : c.walkContents mr = .ok c') :
    c'.constantTable = c.constantTable := by
  obtain ⟨functionless, walked, emptied⟩ := Checked.bind_eq_ok.mp run
  calc c'.constantTable
    _ = functionless.constantTable :=
      constantTable_foldlM (fun _ _ _ => constantTable_eraseValue) emptied
    _ = c.constantTable := constantTable_foldlM (fun _ _ _ => constantTable_eraseFunctionTree) walked

theorem entries_eraseContents {c c' : Context} (run : c.eraseContents mr = .ok c') :
    c'.constantTable.entries.Sublist c.constantTable.entries := by
  rw [eraseContents_eq, Checked.bind_eq_ok] at run
  obtain ⟨walked, walk, purged⟩ := run
  rw [← constantTable_walkContents walk]
  exact entries_purgeWithin purged

end Context

/-- An erasure only takes entries out of the table of constants. -/
theorem Build.eraseModule_entries {ctx ctx' : Context} {m : ModuleRef} {u : Unit}
    (run : (eraseModule m ctx).result = .ok (u, ctx')) :
    ctx'.constantTable.entries.Sublist ctx.constantTable.entries := by
  obtain ⟨r, mid, taken, reported⟩ := bind_eq_ok.mp run
  obtain ⟨_, mid', emitted, replaced⟩ := bind_eq_ok.mp reported
  obtain rfl := emit_eq_ok.mp emitted
  obtain ⟨r', _, same⟩ := takeModule_eq_ok.mp taken
  obtain ⟨rfl, rfl⟩ := Prod.mk.inj same
  obtain ⟨c, erased, same'⟩ := Checked.map_eq_ok.mp replaced
  obtain ⟨_, rfl⟩ := Prod.mk.inj same'
  have shrunk : c.constantTable.entries.Sublist
      ({ ctx with modules := ctx.modules.modify m.index fun _ => none } :
        Context).constantTable.entries := Context.entries_eraseContents erased
  exact shrunk

end ModuleIR
