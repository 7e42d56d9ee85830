import ModuleIR.Proofs.Interleaving.Following
import ModuleIR.Proofs.Names.Fresh
import ModuleIR.Proofs.Steps.Naming

set_option autoImplicit false

/-!
# Naming alike

Name tables that correspond take the same names: what is bound in the one is bound in the other, so
that a clash is resolved to the same candidate. Naming steps follow each other.
-/
namespace ModuleIR

open List (Forall₂)

namespace Pairing

variable {ρ : Pairing} {t t' : NameTable} {x x' : Symbol}

/-! ### Tables -/

theorem find?_of_entries {entries entries' : List (String × Symbol)}
    (listed : Forall₂ (fun e e' => e'.1 = e.1 ∧ ρ.Symbols e.2 e'.2) entries entries')
    (name : String) : Option.Rel ρ.Symbols (entries.lookup name) (entries'.lookup name) := by
  induction listed with
  | nil => exact .none
  | @cons entry entry' rest rest' head _ ih =>
    obtain ⟨same, symbols⟩ := head
    rw [Table.lookup_cons, Table.lookup_cons, same]
    by_cases found : name = entry.1
    · rw [if_pos found, if_pos found]
      exact .some symbols
    · rw [if_neg found, if_neg found]
      exact ih

namespace Tables

theorem find? (h : ρ.Tables t t') (name : String) :
    Option.Rel ρ.Symbols (t.find? name) (t'.find? name) :=
  find?_of_entries h.entries name

theorem contains (h : ρ.Tables t t') (name : String) :
    t'.bindings.contains name = t.bindings.contains name := by
  have found := h.find? name
  change (t'.find? name).isSome = (t.find? name).isSome
  generalize t.find? name = x, t'.find? name = x' at found
  cases found <;> rfl

theorem empty (separator : String) : ρ.Tables { separator } { separator } := ⟨rfl, rfl, .nil⟩

theorem release (h : ρ.Tables t t') (name : String) :
    ρ.Tables (t.release name) (t'.release name) := by
  refine ⟨h.separator, h.lastSuffix, List.rel_filter (fun e e' ⟨same, _⟩ => ?_) h.entries⟩
  simp only [same]

theorem bind (h : ρ.Tables t t') (name : String) (paired : ρ.Symbols x x') :
    ρ.Tables (t.bind name x) (t'.bind name x') :=
  ⟨h.separator, h.lastSuffix,
    List.rel_append (h.release name).entries (.cons ⟨rfl, paired⟩ .nil)⟩

theorem candidate (h : ρ.Tables t t') (base : String) (suffix : Nat) :
    t'.candidate base suffix = t.candidate base suffix := by
  rw [NameTable.candidate, NameTable.candidate, h.separator]

theorem freeSuffix (h : ρ.Tables t t') (base : String) (tries suffix : Nat) :
    t'.freeSuffix base tries suffix = t.freeSuffix base tries suffix := by
  induction tries generalizing suffix with
  | zero => rfl
  | succ tries ih =>
    rw [NameTable.freeSuffix, NameTable.freeSuffix, h.candidate, h.contains, ih]

theorem insertUnique (h : ρ.Tables t t') (base : String) (paired : ρ.Symbols x x') :
    (t'.insertUnique base x').1 = (t.insertUnique base x).1 ∧
      ρ.Tables (t.insertUnique base x).2 (t'.insertUnique base x').2 := by
  unfold NameTable.insertUnique
  rw [h.contains]
  cases t.bindings.contains base with
  | false => exact ⟨rfl, h.bind base paired⟩
  | true =>
    have sizes : t'.bindings.size = t.bindings.size := h.entries.length_eq.symm
    have suffixes : t'.freeSuffix base t'.bindings.size (t'.lastSuffix + 1) =
        t.freeSuffix base t.bindings.size (t.lastSuffix + 1) := by
      rw [h.freeSuffix, sizes, h.lastSuffix]
    simp only [ite_true, suffixes, h.candidate, true_and]
    have counted (suffix : Nat) : ρ.Tables { t with lastSuffix := suffix }
        { t' with lastSuffix := suffix } := ⟨h.separator, rfl, h.entries⟩
    exact (counted _).bind _ paired

theorem rebind (h : ρ.Tables t t') (old : Option String) (name : String)
    (paired : ρ.Symbols x x') : (t'.rebind old name x').1 = (t.rebind old name x).1 ∧
      ρ.Tables (t.rebind old name x).2 (t'.rebind old name x').2 := by
  have released : ρ.Tables (t.released old) (t'.released old) := by
    cases old with
    | none => exact h
    | some previous => exact h.release previous
  rw [NameTable.rebind_eq, NameTable.rebind_eq]
  cases name.isEmpty with
  | true => exact ⟨rfl, released⟩
  | false =>
    obtain ⟨names, tables⟩ := released.insertUnique name paired
    exact ⟨congrArg some names, tables⟩

end Tables

/-! ### Steps -/

open Checked (Echoed)

open Context

variable {ρ₂ : Pairing} {c₁ c₂ c : Context}

theorem owned_of_function {f : FunctionRef} {r : FunctionRecord} (read : c₁.function f = .ok r) :
    c₁.Owned (.value f.value) := by
  obtain ⟨value, read, kind⟩ := function_eq_ok.mp read
  exact ⟨value, read, by rw [kind]; rfl⟩

namespace Follows

variable (s : SideBySide ρ ρ₂ c₁ c₂ c)
include s

theorem functionChanged {f f' : FunctionRef} {F F' : FunctionRecord → FunctionRecord}
    (paired : ρ.Through FunctionRef.value f f') (owned : c₁.Owned (.value f.value))
    (same : ∀ r r', ρ.Functions r r' → ρ.Functions (F r) (F' r')) :
    SideBySide ρ ρ₂ (c₁.modifyFunction f F) c₂ (c.modifyFunction f' F') ∧
      c₁.Keeps (c₁.modifyFunction f F) := by
  refine s.modifyValue paired owned fun r r' read _ records => ?_
  obtain ⟨q, read', own⟩ := owned
  obtain rfl := Checked.unique read read'
  obtain ⟨type, name, kind⟩ := r
  obtain ⟨type', name', kind'⟩ := r'
  have kinds : ρ.Kinds kind kind' := records.kind
  cases kinds with
  | function record => exact ⟨⟨records.type, records.name, .function (same _ _ record)⟩, rfl⟩
  | _ => exact ⟨records, own⟩

theorem rebindInModule {m m' : ModuleRef} {x x' : Symbol} (modules : ρ.Modules m m')
    (old : Option String) (name : String) (symbols : ρ.Symbols x x') :
    Follows ρ ρ₂ c₁ c₂ c (Build.rebindInModule m old name x) (Build.rebindInModule m' old name x')
      fun _ _ bound bound' => bound' = bound := by
  refine .read (s.left.module m m' modules) fun r r' read same => ?_
  obtain ⟨names, tables⟩ := same.names.rebind old name symbols
  refine .changeThen (s.modifyModule modules ⟨r, read⟩ fun q q' records =>
    ⟨records.name, records.globals, records.functions, tables⟩) fun s _ => ?_
  exact .pure s names

theorem rebindInFunction {f f' : FunctionRef} {x x' : Symbol}
    (functions : ρ.Through FunctionRef.value f f') (old : Option String) (name : String)
    (symbols : ρ.Symbols x x') :
    Follows ρ ρ₂ c₁ c₂ c (Build.rebindInFunction f old name x)
      (Build.rebindInFunction f' old name x') fun _ _ bound bound' => bound' = bound := by
  refine .read (s.left.function functions) fun r r' read same => ?_
  obtain ⟨names, tables⟩ := same.names.rebind old name symbols
  refine .changeThen (functionChanged s functions (owned_of_function read) fun q q' record =>
    ⟨record.module, record.signature, record.linkage, record.convention, record.args, record.blocks,
      tables⟩) fun s _ => ?_
  exact .pure s names

theorem nameChanged {v v' : ValueRef} (paired : ρ.Values v v') (owned : c₁.Owned (.value v))
    (name : Option String) :
    SideBySide ρ ρ₂ (c₁.setValueName v name) c₂ (c.setValueName v' name) ∧
      c₁.Keeps (c₁.setValueName v name) := by
  refine s.modifyValue paired owned fun r r' read _ records => ?_
  obtain ⟨q, read', own⟩ := owned
  obtain rfl := Checked.unique read read'
  exact ⟨⟨records.type, rfl, records.kind⟩, own⟩

theorem blockNameChanged {b b' : BlockRef} (paired : ρ.Blocks b b') (owned : c₁.Owned (.block b))
    (name : Option String) :
    SideBySide ρ ρ₂ (c₁.setBlockName b name) c₂ (c.setBlockName b' name) ∧
      c₁.Keeps (c₁.setBlockName b name) :=
  s.modifyBlock paired owned (fun _ _ records => ⟨rfl, records.parent, records.instructions⟩)
    (fun _ => rfl) fun _ => rfl

omit s in
theorem owned_of_nameScope {v : ValueRef} {scope : NameScope} (found : c₁.nameScope v = .ok scope) :
    c₁.Owned (.value v) := by
  obtain ⟨⟨type, name, kind⟩, read, rest⟩ := Checked.bind_eq_ok.mp found
  refine ⟨_, read, ?_⟩
  cases kind with
  | int | bytes | elementPtr => cases rest
  | _ => rfl

omit s in
theorem nameThen {v v' : ValueRef} (paired : ρ.Values v v') (owned : c₁.Owned (.value v))
    {step step' : Build (Option String)}
    (chosen : Follows ρ ρ₂ c₁ c₂ c step step' fun _ _ bound bound' => bound' = bound) :
    Follows ρ ρ₂ c₁ c₂ c
      (do
        let bound ← step
        Build.change (·.setValueName v bound))
      (do
        let bound ← step'
        Build.change (·.setValueName v' bound)) fun _ _ _ _ => True := by
  refine chosen.bind fun ρ c₁ c bound bound' sub s keeps same => ?_
  subst same
  exact .change (nameChanged s (paired.mono sub) (keeps.owned _ owned) bound') trivial

theorem bindIn {scope scope' : NameScope} {old old' : Option String} (scopes : ρ.Scopes scope scope')
    (olds : old' = old) (name : String) (symbols : ρ.Symbols x x') :
    Follows ρ ρ₂ c₁ c₂ c (Build.bindIn scope old name x) (Build.bindIn scope' old' name x')
      fun _ _ bound bound' => bound' = bound := by
  subst olds
  cases scopes with
  | module modules => exact rebindInModule s modules _ name symbols
  | function functions => exact rebindInFunction s functions _ name symbols
  | detached => exact .pure s rfl

theorem setValueName {v v' : ValueRef} (paired : ρ.Values v v') (name : String) :
    Follows ρ ρ₂ c₁ c₂ c (Build.setValueName v name) (Build.setValueName v' name)
      fun _ _ _ _ => True := by
  rw [Build.setValueName_eq, Build.setValueName_eq]
  refine .read (s.left.nameScope paired) fun scope scope' found scopes => ?_
  have owned := owned_of_nameScope found
  refine .read (s.left.value v v' paired) fun r r' read records => ?_
  have named := nameThen paired owned (bindIn s scopes records.name name (.value paired))
  cases empty : !name.isEmpty with
  | true =>
    refine .read (s.left.shape _ _ records.type) fun q q' _ shapes => ?_
    exact .require (by rw [shapes.isVoid]) named
  | false => exact named

omit s in
theorem blockNameThen {b b' : BlockRef} (paired : ρ.Blocks b b') (owned : c₁.Owned (.block b))
    {step step' : Build (Option String)}
    (chosen : Follows ρ ρ₂ c₁ c₂ c step step' fun _ _ bound bound' => bound' = bound) :
    Follows ρ ρ₂ c₁ c₂ c
      (do
        let bound ← step
        Build.change (·.setBlockName b bound))
      (do
        let bound ← step'
        Build.change (·.setBlockName b' bound)) fun _ _ _ _ => True := by
  refine chosen.bind fun ρ c₁ c bound bound' sub s keeps same => ?_
  subst same
  exact .change (blockNameChanged s (paired.mono sub) (keeps.owned _ owned) bound') trivial

theorem setBlockName {b b' : BlockRef} (paired : ρ.Blocks b b') (name : String) :
    Follows ρ ρ₂ c₁ c₂ c (Build.setBlockName b name) (Build.setBlockName b' name)
      fun _ _ _ _ => True := by
  refine .read (s.left.block b b' paired) fun ⟨_, parent, _, _⟩ ⟨_, parent', _, _⟩ read same => ?_
  have parents : Option.Rel (ρ.Through FunctionRef.value) parent parent' := same.parent
  obtain rfl := same.name
  cases parents with
  | none => exact blockNameThen paired ⟨_, read⟩ (.pure s rfl)
  | some home => exact blockNameThen paired ⟨_, read⟩ (rebindInFunction s home _ name (.block paired))

end Follows
end Pairing
end ModuleIR
