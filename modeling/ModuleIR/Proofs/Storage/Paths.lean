import ModuleIR.Storage.Stream

set_option autoImplicit false

/-!
# Paths that name files

A path names the place of a regular file, or a name that is free in a directory. Only `-` itself is
such a path and stands for standard output: with slashes behind it, it would have to be a directory,
and with a dot behind them it is one.
-/
namespace ModuleIR

namespace Text

theorem eq_mark_of_splitAt {mark : Char} {cs : List Char}
    (blank : ∀ part ∈ splitAt mark cs, part = []) : ∀ c ∈ cs, c = mark := by
  induction cs with
  | nil => simp
  | cons c rest ih =>
    unfold splitAt at blank
    split at blank
    · rename_i same
      exact List.forall_mem_cons.mpr
        ⟨same, ih fun part mem => blank part (List.mem_cons_of_mem _ mem)⟩
    · split at blank <;> simp at blank

end Text

namespace Storage

variable {s : Storage} {path : String} {place parent : Place} {name : String} {slash : Bool}
  {content : Option (Array UInt8)}

/-- The path leads to the place of a regular file with that content, or to a free name. -/
structure Names (s : Storage) (path : String) (place : Place) (content : Option (Array UInt8)) :
    Prop where
  resolved : ∃ parent name, s.resolve path = .ok (.entry parent name false) ∧
    name.utf8ByteSize ≤ maxName ∧ place = parent ++ [name]
  node : s.node? place = content.map .file

theorem Names.inner (names : s.Names path place content) : place ≠ [] := by
  obtain ⟨parent, name, _, _, rfl⟩ := names.resolved
  simp

theorem resolve_entry (resolved : s.resolve path = .ok (.entry parent name slash)) :
    (∃ before, (pathNames path).reverse = name :: before) ∧ name ≠ "." ∧
      slash = (path.toList.getLast? == some '/') := by
  simp only [resolve, bind, Except.bind, pure, Except.pure, throw, throwThe,
    MonadExceptOf.throw] at resolved
  cases parts : (pathNames path).reverse with
  | nil => grind
  | cons last before =>
    rw [parts] at resolved
    cases walked : s.walk (pathStart path) before.reverse with
    | error fault => grind
    | ok place => grind

/-- A path with the one name `-` is that name, or has a slash at one of its ends. -/
theorem eq_of_pathNames (single : pathNames path = ["-"]) (start : path.toList.head? = some '-')
    (ending : path.toList.getLast? ≠ some '/') : path = "-" := by
  obtain ⟨rest, content⟩ := List.head?_eq_some_iff.mp start
  rw [pathNames, content, Text.splitAt, if_neg (by decide)] at single
  cases split : Text.splitAt '/' rest with
  | nil => exact absurd split (Text.splitAt_ne_nil _ _)
  | cons part parts =>
    simp only [split, List.filter_cons, List.isEmpty_cons, Bool.not_false, ↓reduceIte,
      List.map_cons, List.cons.injEq, List.map_eq_nil_iff, List.filter_eq_nil_iff,
      Bool.not_eq_true', Bool.not_eq_false] at single
    obtain ⟨first, blank⟩ := single
    obtain rfl : part = [] := by
      have same : '-' :: part = ['-'] := by simpa using congrArg String.toList first
      exact (List.cons.inj same).2
    have slashes : ∀ c ∈ rest, c = '/' := by
      refine Text.eq_mark_of_splitAt ?_
      rw [split]
      exact List.forall_mem_cons.mpr ⟨rfl, fun part mem => by simpa using blank part mem⟩
    cases last : rest.getLast? with
    | none =>
      rw [List.getLast?_eq_none_iff.mp last] at content
      exact String.toList_inj.mp content
    | some c =>
      refine absurd ?_ ending
      rw [content, List.getLast?_cons, last, slashes c (List.mem_of_getLast? last)]
      rfl

theorem Names.isStandardOutput (names : s.Names path place content) (other : path ≠ "-") :
    Stream.isStandardOutput path = false := by
  obtain ⟨_, name, resolved, _, _⟩ := names.resolved
  obtain ⟨⟨before, parts⟩, notDot, ending⟩ := resolve_entry resolved
  refine Bool.eq_false_iff.mpr fun standard => other ?_
  rw [Stream.isStandardOutput] at standard
  split at standard
  · rename_i first rest listed
    simp only [Bool.and_eq_true, beq_iff_eq, List.all_eq_true] at standard
    obtain ⟨⟨rfl, start⟩, dots⟩ := standard
    obtain rfl : rest = [] := by
      rw [listed] at parts
      cases shape : rest.reverse with
      | nil => exact List.reverse_eq_nil_iff.mp shape
      | cons last _ =>
        rw [List.reverse_cons, shape] at parts
        obtain rfl := (List.cons.inj parts).1
        have mem : last ∈ rest := List.mem_reverse.mp (shape ▸ List.mem_cons_self)
        exact absurd (dots last mem) notDot
    exact eq_of_pathNames listed start (by simpa using ending.symm)
  · cases standard

end Storage
end ModuleIR
