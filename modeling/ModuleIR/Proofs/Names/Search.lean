import ModuleIR.Proofs.Names.Fresh

set_option autoImplicit false

/-!
# The search for a free name

The search is a loop without a bound: a counter of 32 bits goes up until its candidate is free. It
ends because candidates differ, so that it can pass over no more of them than names are bound. Of the
bound names one is the name asked for, which is no candidate: the bound on the tries is sharp by one,
and the counter stays a word whenever counter and number of names do together.

The loop is watched for a number of tries, and has no result while it is running after them.
-/
namespace ModuleIR

namespace NameTable

/-! ### The loop as it is run -/

/-- The counter whose candidate is free, found from the last counter used, if so many candidates are
tried. -/
def searchSuffix (t : NameTable) (base : String) : Nat → UInt32 → Option UInt32
  | 0, _ => none
  | tries + 1, counter =>
    let suffix := counter + 1
    if t.bindings.contains (t.candidate base suffix.toNat) then t.searchSuffix base tries suffix
    else some suffix

/-- `insertUnique` by the loop, if so many names are looked up: the name asked for and candidates. -/
def insertSearching (t : NameTable) (base : String) (symbol : Symbol) :
    Nat → Option (String × NameTable)
  | 0 => none
  | tries + 1 => do
    if t.bindings.contains base then
      let suffix ← t.searchSuffix base tries (.ofNat t.lastSuffix)
      let name := t.candidate base suffix.toNat
      return (name, { t with lastSuffix := suffix.toNat }.bind name symbol)
    else return (base, t.bind base symbol)

/-- Names asked for one after another: those that are bound, and the table they are left in. For each
as many names are looked up as are bound, and one. -/
def insertAll (t : NameTable) : List (String × Symbol) → Option (List String × NameTable)
  | [] => some ([], t)
  | (base, symbol) :: rest => do
    let (name, grown) ← t.insertSearching base symbol (t.boundNames.card + 1)
    let (names, last) ← grown.insertAll rest
    return (name :: names, last)

/-- Counter and number of names together are a word. -/
def HasRoom (t : NameTable) : Prop := t.lastSuffix + t.boundNames.card < UInt32.size

def RoomFor (t : NameTable) : List (String × Symbol) → Prop
  | [] => True
  | (base, symbol) :: rest => t.HasRoom ∧ (t.insertUnique base symbol).2.RoomFor rest

instance (t : NameTable) : Decidable t.HasRoom := inferInstanceAs (Decidable (_ < _))

instance decidableRoomFor : ∀ (t : NameTable) (requests : List (String × Symbol)),
    Decidable (t.RoomFor requests)
  | _, [] => isTrue trivial
  | t, (base, symbol) :: rest =>
    have := decidableRoomFor (t.insertUnique base symbol).2 rest
    inferInstanceAs (Decidable (_ ∧ _))

/-- What becomes of a table in which a symbol is bound to a name: the one asked for, or the candidate
of the least counter above the last one that is free. -/
structure BindsFresh (t : NameTable) (base : String) (symbol : Symbol) (name : String)
    (grown : NameTable) : Prop where
  fresh : t.find? name = none
  bound : grown.find? name = some symbol
  others : ∀ other, other ≠ name → grown.find? other = t.find? other
  separator : grown.separator = t.separator
  counter : t.lastSuffix ≤ grown.lastSuffix
  word : grown.lastSuffix < UInt32.size
  asAsked : t.find? base = none → name = base ∧ grown.lastSuffix = t.lastSuffix
  suffixed : t.find? base ≠ none → ∃ k, t.lastSuffix < k ∧ grown.lastSuffix = k ∧
    name = base ++ t.separator ++ toString k ∧
    ∀ j, t.lastSuffix < j → j < k → t.find? (base ++ t.separator ++ toString j) ≠ none

variable {t : NameTable} {base : String} {symbol : Symbol} {passed : Nat}

/-! ### The loop ends -/

theorem contains_eq_true {name : String} :
    t.bindings.contains name = true ↔ t.find? name ≠ none := by
  rw [Table.contains, Option.isSome_iff_ne_none]
  rfl

theorem candidate_ne_base (t : NameTable) (base : String) (suffix : Nat) :
    t.candidate base suffix ≠ base := by
  intro same
  have appended : base ++ (t.separator ++ toString suffix) = base ++ "" := by
    rw [← String.append_assoc, String.append_empty]
    exact same
  have nothing := (String.append_right_inj _).mp appended
  exact Nat.repr_ne_empty (String.append_eq_empty_iff.mp nothing).2

/-- Bound candidates and the bound name they are made from are so many names. -/
theorem passed_lt_card {start : Nat} (asked : t.bindings.contains base = true)
    (taken : ∀ i < passed, t.bindings.contains (t.candidate base (start + i)) = true) :
    passed < t.boundNames.card := by
  have apart : base ∉ t.candidates base start passed := by
    intro mem
    obtain ⟨i, _, same⟩ := Finset.mem_image.mp mem
    exact candidate_ne_base t base _ same
  have inside : insert base (t.candidates base start passed) ⊆ t.boundNames :=
    Finset.insert_subset (mem_boundNames.mpr asked) (candidates_subset taken)
  calc passed < (t.candidates base start passed).card + 1 := by rw [card_candidates]; omega
    _ = (insert base (t.candidates base start passed)).card := (Finset.card_insert_of_notMem apart).symm
    _ ≤ t.boundNames.card := Finset.card_le_card inside

/-- The loop passes over the bound candidates and stops behind them, unless its counter overflows. -/
theorem searchSuffix_eq {counter tries : Nat} (enough : passed < tries)
    (word : counter + 1 + passed < UInt32.size)
    (taken : ∀ i < passed, t.bindings.contains (t.candidate base (counter + 1 + i)) = true)
    (free : t.bindings.contains (t.candidate base (counter + 1 + passed)) = false) :
    t.searchSuffix base tries (.ofNat counter) = some (.ofNat (counter + 1 + passed)) := by
  induction tries generalizing counter passed with
  | zero => omega
  | succ tries ih =>
    have next : UInt32.ofNat counter + 1 = UInt32.ofNat (counter + 1) := by simp
    rw [searchSuffix, next, UInt32.toNat_ofNat_of_lt' (by omega)]
    cases passed with
    | zero =>
      rw [Nat.add_zero] at free ⊢
      simp [free]
    | succ passed =>
      have shift (i : Nat) : counter + 1 + (i + 1) = counter + 1 + 1 + i := by omega
      have first : t.bindings.contains (t.candidate base (counter + 1)) = true :=
        taken 0 (Nat.succ_pos _)
      rw [if_pos first, shift]
      rw [shift] at free word
      refine ih (by omega) word (fun i inside => ?_) free
      rw [← shift]
      exact taken (i + 1) (by omega)

theorem insertUnique_of_taken (symbol : Symbol) (asked : t.bindings.contains base = true) :
    ∃ passed < t.boundNames.card,
      t.insertUnique base symbol = (t.candidate base (t.lastSuffix + 1 + passed),
        { t with lastSuffix := t.lastSuffix + 1 + passed }.bind
          (t.candidate base (t.lastSuffix + 1 + passed)) symbol) ∧
      (∀ i < passed, t.bindings.contains (t.candidate base (t.lastSuffix + 1 + i)) = true) ∧
      t.bindings.contains (t.candidate base (t.lastSuffix + 1 + passed)) = false := by
  obtain ⟨passed, ends, taken, _⟩ := t.freeSuffix_eq base t.bindings.size (t.lastSuffix + 1)
  have free := t.candidate_freeSuffix base (t.lastSuffix + 1)
  rw [ends] at free
  refine ⟨passed, passed_lt_card asked taken, ?_, taken, free⟩
  rw [insertUnique, if_pos asked, ends]

/-- With room the loop ends where `insertUnique` does, once as many names are looked up as are bound,
and one. -/
theorem insertSearching_eq (room : t.HasRoom) (base : String) (symbol : Symbol) {tries : Nat}
    (enough : t.boundNames.card < tries) :
    t.insertSearching base symbol tries = some (t.insertUnique base symbol) := by
  obtain ⟨tries, rfl⟩ := Nat.exists_eq_succ_of_ne_zero (by omega : tries ≠ 0)
  cases asked : t.bindings.contains base with
  | false =>
    rw [insertSearching, insertUnique, asked]
    rfl
  | true =>
    obtain ⟨passed, few, inserted, taken, free⟩ := insertUnique_of_taken symbol asked
    have word : t.lastSuffix + 1 + passed < UInt32.size := by
      unfold HasRoom at room
      omega
    rw [inserted, insertSearching, if_pos asked, searchSuffix_eq (by omega) word taken free]
    simp only [Option.bind_eq_bind, Option.bind_some, UInt32.toNat_ofNat_of_lt' word]
    rfl

theorem lastSuffix_insertUnique (t : NameTable) (base : String) (symbol : Symbol) :
    t.lastSuffix ≤ (t.insertUnique base symbol).2.lastSuffix ∧
      (t.insertUnique base symbol).2.lastSuffix ≤ t.lastSuffix + t.boundNames.card := by
  cases asked : t.bindings.contains base with
  | false =>
    rw [insertUnique, asked]
    exact ⟨Nat.le_refl _, Nat.le_add_right ..⟩
  | true =>
    obtain ⟨passed, few, inserted, _⟩ := insertUnique_of_taken symbol asked
    rw [inserted]
    change t.lastSuffix ≤ t.lastSuffix + 1 + passed ∧ t.lastSuffix + 1 + passed ≤ _
    omega

theorem bindsFresh (room : t.HasRoom) (base : String) (symbol : Symbol) :
    t.BindsFresh base symbol (t.insertUnique base symbol).1 (t.insertUnique base symbol).2 where
  fresh := t.insertUnique_free base symbol
  bound := by rw [find?_insertUnique, if_pos rfl]
  others other different := by rw [find?_insertUnique, if_neg different]
  separator := by
    unfold insertUnique
    split <;> rfl
  counter := (t.lastSuffix_insertUnique base symbol).1
  word := Nat.lt_of_le_of_lt (t.lastSuffix_insertUnique base symbol).2 room
  asAsked free := by
    rw [insertUnique_of_free t base symbol free]
    exact ⟨rfl, rfl⟩
  suffixed asked := by
    obtain ⟨passed, _, inserted, taken, _⟩ :=
      insertUnique_of_taken symbol (contains_eq_true.mpr asked)
    rw [inserted]
    refine ⟨t.lastSuffix + 1 + passed, by omega, rfl, rfl, fun j above below => ?_⟩
    have before := taken (j - (t.lastSuffix + 1)) (by omega)
    rw [Nat.add_sub_cancel' above] at before
    exact contains_eq_true.mp before

/-! ### Names asked for one after another -/

theorem insertAll_eq {requests : List (String × Symbol)} (room : t.RoomFor requests) :
    ∃ names last, t.insertAll requests = some (names, last) ∧ names.length = requests.length ∧
      names.Nodup ∧ ∀ name ∈ names, t.find? name = none := by
  induction requests generalizing t with
  | nil => exact ⟨[], t, rfl, rfl, List.nodup_nil, fun _ mem => absurd mem List.not_mem_nil⟩
  | cons request rest ih =>
    obtain ⟨base, symbol⟩ := request
    obtain ⟨here, later⟩ := room
    have first := insertSearching_eq here base symbol (Nat.lt_succ_self _)
    have binds := bindsFresh here base symbol
    obtain ⟨names, last, run, length, nodup, fresh⟩ := ih later
    have apart : (t.insertUnique base symbol).1 ∉ names := by
      intro again
      have impossible := fresh _ again
      rw [binds.bound] at impossible
      cases impossible
    refine ⟨(t.insertUnique base symbol).1 :: names, last, ?_, congrArg (· + 1) length,
      List.nodup_cons.mpr ⟨apart, nodup⟩, fun name mem => ?_⟩
    · rw [insertAll, first]
      simp [run]
    · rcases List.mem_cons.mp mem with rfl | mem
      · exact binds.fresh
      · have other : name ≠ (t.insertUnique base symbol).1 := fun same => apart (same ▸ mem)
        rw [← binds.others name other]
        exact fresh name mem

/-- A name that is asked for is bound after no more look-ups than names are bound and one: itself if it
is free, else the candidate of the least counter above the last one whose candidate is free. Names
asked for one after another are bound to names that are pairwise distinct. -/
theorem search_ends_fresh (t : NameTable) (base : String) (symbol : Symbol) (room : t.HasRoom) :
    (∃ name grown, t.insertUnique base symbol = (name, grown) ∧
      (∀ tries, t.boundNames.card + 1 ≤ tries →
        t.insertSearching base symbol tries = some (name, grown)) ∧
      t.BindsFresh base symbol name grown) ∧
    ∀ requests, t.RoomFor requests → ∃ names last, t.insertAll requests = some (names, last) ∧
      names.length = requests.length ∧ names.Nodup := by
  constructor
  · exact ⟨_, _, rfl, fun tries enough => insertSearching_eq room base symbol enough,
      bindsFresh room base symbol⟩
  · intro requests rooms
    obtain ⟨names, last, run, length, nodup, _⟩ := insertAll_eq rooms
    exact ⟨names, last, run, length, nodup⟩

/-- A table whose counter is about to overflow, with bound candidates above it. -/
def nearlyFull : NameTable where
  separator := ""
  lastSuffix := 4294967286
  bindings := ⟨[("call", .block ⟨⟨1⟩, 0⟩), ("call4294967287", .block ⟨⟨1⟩, 1⟩),
    ("call4294967289", .block ⟨⟨1⟩, 2⟩)]⟩

theorem nearlyFull_searched :
    nearlyFull.HasRoom ∧
    nearlyFull.RoomFor
      [("call", .block ⟨⟨1⟩, 3⟩), ("call", .block ⟨⟨1⟩, 4⟩), ("x", .block ⟨⟨1⟩, 5⟩)] ∧
    (∃ grown, nearlyFull.insertSearching "call" (.block ⟨⟨1⟩, 3⟩) 4 =
        some ("call4294967288", grown) ∧
      grown.find? "call4294967288" = some (.block ⟨⟨1⟩, 3⟩)) ∧
    ∃ names last, nearlyFull.insertAll
        [("call", .block ⟨⟨1⟩, 3⟩), ("call", .block ⟨⟨1⟩, 4⟩), ("x", .block ⟨⟨1⟩, 5⟩)] =
        some (names, last) ∧ names.length = 3 ∧ names.Nodup := by
  have room : nearlyFull.HasRoom := by decide +kernel
  have rooms : nearlyFull.RoomFor
      [("call", .block ⟨⟨1⟩, 3⟩), ("call", .block ⟨⟨1⟩, 4⟩), ("x", .block ⟨⟨1⟩, 5⟩)] := by
    decide +kernel
  have three : nearlyFull.boundNames.card = 3 := by decide +kernel
  obtain ⟨⟨name, grown, inserted, run, binds⟩, all⟩ :=
    search_ends_fresh nearlyFull "call" (.block ⟨⟨1⟩, 3⟩) room
  have computed : (nearlyFull.insertUnique "call" (.block ⟨⟨1⟩, 3⟩)).1 = "call4294967288" := by
    decide +kernel
  rw [inserted] at computed
  subst computed
  exact ⟨room, rooms, ⟨grown, run 4 (by omega), binds.bound⟩, all _ rooms⟩

end NameTable
end ModuleIR
