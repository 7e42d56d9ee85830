import Mathlib.Data.List.Basic
import Mathlib.Data.List.Induction
import Mathlib.Data.Option.Basic
import ModuleIR.Proofs.Arena.WellFormed
import ModuleIR.Proofs.Text.Splitting

set_option autoImplicit false

/-!
# Texts of types

The text of a type tells the type. It is read from its end: the last character says of which shape
the type is, and what stands before it is read on, the inner types as types again, so that a type
that stands at the end of a text is known without knowing where it starts. A blank inside the text of
a type is followed by one of a few characters, which separates the type from an operand behind it.
-/
namespace ModuleIR

open Text

/-! ### One shape at a time -/

def Shape.text (text : TypeRef → String) : Shape → String
  | .void => "void"
  | .label => "label"
  | .integer bits => "i" ++ toString bits
  | .pointer pointee space => text pointee ++ space.text ++ "*"
  | .array element length => "[" ++ toString length ++ " x " ++ text element ++ "]"
  | .function result params variadic => text result ++ " (" ++
      ", ".intercalate (params.map text ++ (if variadic then ["..."] else [])) ++ ")"

namespace Context

/-- The text of a type, empty where there is none. -/
def typeText (ctx : Context) (t : TypeRef) : String := (ctx.describeType t).toOption.getD ""

variable {ctx : Context}

theorem describeTypeWithin_shape {depth : Nat} {t : TypeRef} {s : Shape} {text : TypeRef → String}
    (read : ctx.shape t = .ok s)
    (inner : ∀ u ∈ s.inner, ctx.describeTypeWithin depth u = .ok (text u)) :
    ctx.describeTypeWithin (depth + 1) t = .ok (s.text text) := by
  rw [describeTypeWithin, read, Checked.ok_bind]
  cases s with
  | void | label | integer => rfl
  | pointer pointee space | array element length =>
    simp only [inner _ List.mem_cons_self]
    rfl
  | function result params variadic =>
    have each : params.mapM (fun param => ctx.describeTypeWithin depth param) =
        .ok (params.map text) :=
      Checked.mapM_eq_map fun u mem => inner u (List.mem_cons_of_mem _ mem)
    simp only [inner _ List.mem_cons_self, each]
    rfl

theorem WellFormed.describeTypeWithin_eq (wf : ctx.WellFormed) {t : TypeRef} (has : ctx.HasType t) :
    ∀ depth, t.index < depth → ctx.describeTypeWithin depth t = .ok (ctx.typeText t) := by
  refine wf.type_induction (motive := fun t => ∀ depth, t.index < depth →
    ctx.describeTypeWithin depth t = .ok (ctx.typeText t)) (fun t s read inner => ?_) has
  have within {depth : Nat} (deep : t.index < depth) :
      ctx.describeTypeWithin depth t = .ok (s.text ctx.typeText) := by
    obtain ⟨depth, rfl⟩ := Nat.exists_eq_succ_of_ne_zero (Nat.ne_zero_of_lt deep)
    refine describeTypeWithin_shape read fun u mem => ?_
    have before := (wf.inner _ s (shape_eq_ok.mp read).2 u mem).2
    exact (inner u mem).2 depth (by omega)
  intro depth deep
  rw [typeText, describeType, within (Nat.lt_succ_self _)]
  exact within deep

/-- Every type has a text. -/
theorem WellFormed.describeType_eq (wf : ctx.WellFormed) {t : TypeRef} (has : ctx.HasType t) :
    ctx.describeType t = .ok (ctx.typeText t) :=
  wf.describeTypeWithin_eq has _ (Nat.lt_succ_self _)

theorem WellFormed.typeText_eq (wf : ctx.WellFormed) {t : TypeRef} {s : Shape}
    (read : ctx.shape t = .ok s) : ctx.typeText t = s.text ctx.typeText := by
  have written : ctx.describeType t = .ok (s.text ctx.typeText) :=
    describeTypeWithin_shape read fun u mem => wf.describeTypeWithin_eq (wf.hasType_inner read mem) _
      (wf.inner _ s (shape_eq_ok.mp read).2 u mem).2
  rw [typeText, written]
  rfl

theorem WellFormed.describeTypeOf_eq (wf : ctx.WellFormed) {v : ValueRef} {r : ValueRecord}
    (read : ctx.value v = .ok r) : ctx.describeTypeOf v = .ok (ctx.typeText r.type) :=
  describeTypeOf_eq_ok.mpr ⟨r, read, wf.describeType_eq (wf.valueSound read).type⟩

theorem typeText_of_describeType {t : TypeRef} {text : String} (written : ctx.describeType t = .ok text) :
    ctx.typeText t = text := by
  rw [typeText, written]
  rfl

theorem hasType_of_describeType {t : TypeRef} {text : String}
    (written : ctx.describeType t = .ok text) : ctx.HasType t := by
  obtain ⟨s, read, _⟩ := Checked.bind_eq_ok.mp written
  exact ⟨s, read⟩

theorem WellFormed.describeType_eq_ok (wf : ctx.WellFormed) {t : TypeRef} {text : String} :
    ctx.describeType t = .ok text ↔ ctx.HasType t ∧ ctx.typeText t = text := by
  constructor
  · exact fun written => ⟨hasType_of_describeType written, typeText_of_describeType written⟩
  · rintro ⟨has, rfl⟩
    exact wf.describeType_eq has

end Context

/-! ### Blanks inside a type -/

/-- Characters that a type starts with, or that follow a blank inside a type. -/
def isTypeChar (c : Char) : Bool := c ∈ ['v', 'l', 'i', '[', 'x', 'a', '(', '.']

/-- The text starts with a character of types, and has only those behind blanks. -/
structure TypeLike (a : List Char) : Prop where
  starts : a.head?.any isTypeChar = true
  spaced : Spaced isTypeChar a

instance : DecidablePred TypeLike := fun _ =>
  decidable_of_iff (_ ∧ _) ⟨fun h => ⟨h.1, h.2⟩, fun h => ⟨h.starts, h.spaced⟩⟩

namespace TypeLike

variable {a b : List Char}

theorem behind_blank (h : TypeLike a) : Spaced isTypeChar (' ' :: a) := ⟨fun _ => h.starts, h.spaced⟩

theorem append (h : TypeLike a) (spaced : Spaced isTypeChar b) : TypeLike (a ++ b) := by
  refine ⟨?_, h.spaced.append spaced⟩
  have starts := h.starts
  cases a with
  | nil => cases starts
  | cons c rest => exact starts

theorem append_comma (h : TypeLike a) (h' : TypeLike b) : TypeLike (a ++ ',' :: ' ' :: b) :=
  h.append ⟨fun blank => absurd blank (by decide), h'.behind_blank⟩

theorem intercalate {s : String} {ss : List String} (each : ∀ t ∈ s :: ss, TypeLike t.toList) :
    TypeLike (", ".intercalate (s :: ss)).toList := by
  induction ss generalizing s with
  | nil => simpa using each
  | cons next rest ih =>
    rw [List.forall_mem_cons] at each
    rw [String.intercalate_cons_cons, String.toList_append, String.toList_append, List.append_assoc]
    exact each.1.append_comma (ih each.2)

end TypeLike

theorem spaced_numeral (n : Nat) : Spaced isTypeChar (toString n).toList :=
  spaced_of_not_mem fun mem => absurd (isDigit_of_mem_toString mem) (by decide)

theorem AddressSpace.spaced_text (space : AddressSpace) :
    Spaced isTypeChar space.text.toList := by
  cases space <;> decide

theorem Shape.typeLike_text {text : TypeRef → String} {s : Shape}
    (inner : ∀ u ∈ s.inner, TypeLike (text u).toList) : TypeLike (s.text text).toList := by
  cases s with
  | void => exact (by decide : TypeLike "void".toList)
  | label => exact (by decide : TypeLike "label".toList)
  | integer bits =>
    rw [Shape.text, String.toList_append]
    exact .append (by decide) (spaced_numeral bits)
  | pointer pointee space =>
    simp only [Shape.text, String.toList_append]
    exact ((inner pointee List.mem_cons_self).append space.spaced_text).append (by decide)
  | array element length =>
    have element := (inner element List.mem_cons_self).behind_blank
    have counted : TypeLike ("[".toList ++ (toString length).toList) :=
      .append (by decide) (spaced_numeral length)
    have crossed := (counted.append (by decide : Spaced isTypeChar " x".toList)).append element
    have closed := crossed.append (by decide : Spaced isTypeChar "]".toList)
    simpa [Shape.text] using closed
  | function result params variadic =>
    have result := inner result List.mem_cons_self
    have items : ∀ t ∈ params.map text ++ (if variadic then ["..."] else []),
        TypeLike t.toList := by
      intro t mem
      rcases List.mem_append.mp mem with param | dots
      · obtain ⟨u, listed, rfl⟩ := List.mem_map.mp param
        exact inner u (List.mem_cons_of_mem _ listed)
      · split at dots
        · rw [List.mem_singleton.mp dots]
          decide
        · cases dots
    have params : Spaced isTypeChar
        (", ".intercalate (params.map text ++ (if variadic then ["..."] else []))).toList := by
      cases content : params.map text ++ (if variadic then ["..."] else []) with
      | nil => decide
      | cons first rest => exact (TypeLike.intercalate (content ▸ items)).spaced
    simp only [Shape.text, String.toList_append]
    exact ((result.append (by decide)).append params).append (by decide)

theorem Context.WellFormed.typeLike_typeText {ctx : Context} (wf : ctx.WellFormed) {t : TypeRef}
    (has : ctx.HasType t) : TypeLike (ctx.typeText t).toList := by
  refine wf.type_induction (motive := fun t => TypeLike (ctx.typeText t).toList)
    (fun t s read inner => ?_) has
  rw [wf.typeText_eq read]
  exact Shape.typeLike_text fun u mem => (inner u mem).2

/-! ### Types read from the end -/

/-- Items from the last to the first, each behind a comma as it is met from the end. -/
def behindCommas {α : Type} (spell : α → List Char) : List α → List Char → List Char
  | [], rest => rest
  | item :: items, rest => ' ' :: ',' :: (spell item ++ behindCommas spell items rest)

def behind {α : Type} (spell : α → List Char) : List α → List Char → List Char
  | [], rest => rest
  | item :: items, rest => spell item ++ behindCommas spell items rest

theorem behindCommas_eq {α : Type} {spell : α → List Char} {items : List α} (some : items ≠ [])
    (rest : List Char) : behindCommas spell items rest = ' ' :: ',' :: behind spell items rest := by
  cases items with
  | nil => exact absurd rfl some
  | cons item items => rfl

theorem reverse_intercalate {α : Type} (spell : α → String) (items : List α) (rest : List Char) :
    (", ".intercalate (items.map spell)).toList.reverse ++ rest =
      behind (fun item => (spell item).toList.reverse) items.reverse rest := by
  induction items using List.reverseRecOn generalizing rest with
  | nil => rfl
  | append_singleton items last ih =>
    rw [List.reverse_append, List.reverse_singleton, List.singleton_append, behind]
    by_cases none : items = []
    · subst none
      simp [behindCommas]
    · rw [List.map_append, String.intercalate_append_of_ne_nil (by simpa using none) (by simp),
        behindCommas_eq (by simpa using none), ← ih]
      simp

theorem behind_append {α : Type} {spell : α → List Char} (items : List α) (rest q : List Char) :
    behind spell items rest ++ q = behind spell items (rest ++ q) := by
  have commas (items : List α) :
      behindCommas spell items rest ++ q = behindCommas spell items (rest ++ q) := by
    induction items with
    | nil => rfl
    | cons item items ih => simp only [behindCommas, List.cons_append, List.append_assoc, ih]
  cases items with
  | nil => rfl
  | cons item items => rw [behind, behind, List.append_assoc, commas]

section Items

variable {α : Type} {spell : α → List Char} {rest rest' : List Char}

theorem behindCommas_inj {items items' : List α}
    (code : ∀ i ∈ items, ∀ i' ∈ items', ∀ r r', spell i ++ r = spell i' ++ r' → i = i' ∧ r = r')
    (same : behindCommas spell items ('(' :: rest) = behindCommas spell items' ('(' :: rest')) :
    items = items' ∧ rest = rest' := by
  induction items generalizing items' with
  | nil =>
    cases items' with
    | nil => exact ⟨rfl, (List.cons.inj same).2⟩
    | cons => exact absurd (List.cons.inj same).1 (by decide)
  | cons i others ih =>
    cases items' with
    | nil => exact absurd (List.cons.inj same).1 (by decide)
    | cons i' others' =>
      obtain ⟨rfl, tails⟩ := code i List.mem_cons_self i' List.mem_cons_self _ _
        (List.cons.inj (List.cons.inj same).2).2
      obtain ⟨rfl, rests⟩ := ih (fun j mem j' mem' => code j (List.mem_cons_of_mem _ mem) j'
        (List.mem_cons_of_mem _ mem')) tails
      exact ⟨rfl, rests⟩

/-- Items are read one after another, since an item is known at its end and does not look like what
stands before the first. -/
theorem behind_inj {items items' : List α}
    (code : ∀ i ∈ items, ∀ i' ∈ items', ∀ r r', spell i ++ r = spell i' ++ r' → i = i' ∧ r = r')
    (closed : ∀ i ∈ items ++ items', ∀ r r', spell i ++ r ≠ '(' :: r')
    (same : behind spell items ('(' :: rest) = behind spell items' ('(' :: rest')) :
    items = items' ∧ rest = rest' := by
  cases items with
  | nil =>
    cases items' with
    | nil => exact ⟨rfl, (List.cons.inj same).2⟩
    | cons i' others' => exact absurd same.symm (closed i' List.mem_cons_self _ _)
  | cons i others =>
    cases items' with
    | nil => exact absurd same (closed i List.mem_cons_self _ _)
    | cons i' others' =>
      obtain ⟨rfl, tails⟩ := code i List.mem_cons_self i' List.mem_cons_self _ _ same
      obtain ⟨rfl, rests⟩ := behindCommas_inj (fun j mem j' mem' =>
        code j (List.mem_cons_of_mem _ mem) j' (List.mem_cons_of_mem _ mem')) tails
      exact ⟨rfl, rests⟩

end Items

def spellItem (spell : TypeRef → List Char) : Option TypeRef → List Char
  | none => ['.', '.', '.']
  | some u => spell u

/-- The parameters of a signature from the last, the dots ahead of them. -/
def itemsOf (params : List TypeRef) (variadic : Bool) : List (Option TypeRef) :=
  (if variadic then [none] else []) ++ params.reverse.map some

theorem itemsOf_inj {params params' : List TypeRef} {variadic variadic' : Bool}
    (same : itemsOf params variadic = itemsOf params' variadic') :
    params = params' ∧ variadic = variadic' := by
  have dots (ps : List TypeRef) (v : Bool) : v = true ↔ none ∈ itemsOf ps v := by
    cases v <;> simp [itemsOf]
  obtain rfl : variadic = variadic' := by
    rw [Bool.eq_iff_iff, dots params, dots params', same]
  have params := List.append_cancel_left same
  exact ⟨List.reverse_injective (List.map_injective_iff.mpr (Option.some_injective _) params), rfl⟩

theorem mem_itemsOf {params : List TypeRef} {variadic : Bool} {u : TypeRef} :
    some u ∈ itemsOf params variadic ↔ u ∈ params := by
  cases variadic <;> simp [itemsOf]

def Shape.backward (spell : TypeRef → List Char) : Shape → List Char
  | .void => ['d', 'i', 'o', 'v']
  | .label => ['l', 'e', 'b', 'a', 'l']
  | .integer bits => (Nat.toDigits 10 bits).reverse ++ ['i']
  | .pointer pointee space => '*' :: space.text.toList.reverse ++ spell pointee
  | .array element length =>
    ']' :: spell element ++ ' ' :: 'x' :: ' ' :: (Nat.toDigits 10 length).reverse ++ ['[']
  | .function result params variadic =>
    ')' :: behind (spellItem spell) (itemsOf params variadic) ('(' :: ' ' :: spell result)

theorem reverse_items (text : TypeRef → String) (params : List TypeRef) (variadic : Bool)
    (rest : List Char) :
    (", ".intercalate (params.map text ++ (if variadic then ["..."] else []))).toList.reverse ++ rest =
      behind (spellItem fun u => (text u).toList.reverse) (itemsOf params variadic) rest := by
  let item : Option TypeRef → String
    | none => "..."
    | some u => text u
  have spelled : (fun i => (item i).toList.reverse) = spellItem fun u => (text u).toList.reverse := by
    funext i
    cases i with
    | none => exact (by decide : "...".toList.reverse = ['.', '.', '.'])
    | some u => rfl
  have listed : params.map text ++ (if variadic then ["..."] else []) =
      (itemsOf params variadic).reverse.map item := by
    cases variadic <;> simp [itemsOf, item]
  rw [listed, reverse_intercalate, List.reverse_reverse, spelled]

theorem Shape.reverse_text (text : TypeRef → String) (s : Shape) :
    (s.text text).toList.reverse = s.backward fun u => (text u).toList.reverse := by
  cases s with
  | void => exact (by decide : "void".toList.reverse = ['d', 'i', 'o', 'v'])
  | label => exact (by decide : "label".toList.reverse = ['l', 'e', 'b', 'a', 'l'])
  | integer bits => simp [Shape.text, Shape.backward]
  | pointer pointee space => simp [Shape.text, Shape.backward]
  | array element length => simp [Shape.text, Shape.backward]
  | function result params variadic =>
    rw [Shape.backward, ← reverse_items]
    simp [Shape.text]

/-- What the last character of a type says of its shape. -/
def endingOf (c : Char) : Nat :=
  if c = 'd' then 0 else if c = 'l' then 1 else if c.isDigit then 2 else if c = '*' then 3
  else if c = ']' then 4 else if c = ')' then 5 else 6

def Shape.ending : Shape → Nat
  | .void => 0
  | .label => 1
  | .integer _ => 2
  | .pointer .. => 3
  | .array .. => 4
  | .function .. => 5

theorem endingOf_digit {c : Char} (digit : c.isDigit = true) : endingOf c = 2 := by
  have other {d : Char} (letter : d.isDigit = false) : c ≠ d := by
    rintro rfl
    rw [digit] at letter
    cases letter
  rw [endingOf, if_neg (other (by decide)), if_neg (other (by decide)), if_pos digit]

theorem isDigit_of_mem_reverse {n : Nat} :
    ∀ c ∈ (Nat.toDigits 10 n).reverse, c.isDigit = true := fun _ mem =>
  Nat.isDigit_of_mem_toDigits (by decide) (by decide) (List.mem_reverse.mp mem)

theorem reverse_toDigits_inj {n n' : Nat} {q q' : List Char} (stops : Stops Char.isDigit q)
    (stops' : Stops Char.isDigit q')
    (same : (Nat.toDigits 10 n).reverse ++ q = (Nat.toDigits 10 n').reverse ++ q') :
    n = n' ∧ q = q' := by
  obtain ⟨digits, rests⟩ := append_inj_of_stops isDigit_of_mem_reverse isDigit_of_mem_reverse stops
    stops' same
  exact ⟨(toDigits_inj_of_stops stops_nil stops_nil
    (congrArg (· ++ []) (List.reverse_injective digits))).1, rests⟩

theorem Shape.backward_head (spell : TypeRef → List Char) (s : Shape) :
    ∃ c rest, s.backward spell = c :: rest ∧ endingOf c = s.ending := by
  cases s with
  | integer bits =>
    cases digits : (Nat.toDigits 10 bits).reverse with
    | nil => exact absurd (List.reverse_eq_nil_iff.mp digits) Nat.toDigits_ne_nil
    | cons c rest =>
      refine ⟨c, rest ++ ['i'], by rw [Shape.backward, digits]; rfl, endingOf_digit ?_⟩
      exact isDigit_of_mem_reverse c (digits ▸ List.mem_cons_self)
  | void | label | pointer | array | function => exact ⟨_, _, rfl, rfl⟩

theorem Shape.ending_lt (s : Shape) : s.ending < 6 := by
  cases s <;> simp [Shape.ending]

theorem AddressSpace.reverse_text {space : AddressSpace} (marked : space ≠ .generic) :
    space.text.toList.reverse =
      ')' :: ((Nat.toDigits 10 space.code).reverse ++ '(' :: "addrspace".toList.reverse ++ [' ']) := by
  simp [AddressSpace.text, marked]

theorem AddressSpace.code_injective {space space' : AddressSpace} (same : space.code = space'.code) :
    space = space' :=
  Option.some.inj (by rw [← ofCode?_code space, same, ofCode?_code])

namespace Context

def backward (ctx : Context) (t : TypeRef) : List Char := (ctx.typeText t).toList.reverse

variable {ctx : Context} {t t' : TypeRef} {s s' : Shape} {q q' : List Char}

theorem WellFormed.backward_eq (wf : ctx.WellFormed) (read : ctx.shape t = .ok s) :
    ctx.backward t = s.backward ctx.backward := by
  rw [backward, wf.typeText_eq read]
  exact s.reverse_text ctx.typeText

/-- The last character of a type is not one that stands before the first item. -/
theorem WellFormed.ending_of_backward (wf : ctx.WellFormed) (read : ctx.shape t = .ok s) {c : Char}
    (same : ctx.backward t ++ q = c :: q') : endingOf c = s.ending := by
  obtain ⟨d, rest, spelled, ending⟩ := s.backward_head ctx.backward
  rw [wf.backward_eq read, spelled] at same
  rw [← (List.cons.inj same).1, ending]

theorem WellFormed.not_digits_before_paren (wf : ctx.WellFormed) (has : ctx.HasType t) {d : Char}
    {ds : List Char} (digits : ∀ c ∈ d :: ds, c.isDigit = true) :
    ctx.backward t ++ q ≠ d :: ds ++ '(' :: q' := by
  intro same
  obtain ⟨s, read⟩ := has
  have ending := wf.ending_of_backward read same
  rw [endingOf_digit (digits d List.mem_cons_self)] at ending
  cases s with
  | integer bits =>
    rw [wf.backward_eq read, Shape.backward, List.append_assoc] at same
    obtain ⟨_, rests⟩ := append_inj_of_stops isDigit_of_mem_reverse digits
      (stops_cons.mpr (by decide)) (stops_cons.mpr (by decide)) same
    exact absurd (List.cons.inj rests).1 (by decide)
  | void | label | pointer | array | function => cases ending

theorem WellFormed.not_space (wf : ctx.WellFormed) (has : ctx.HasType t) {d : Char}
    {ds : List Char} (digits : ∀ c ∈ d :: ds, c.isDigit = true) :
    ctx.backward t ++ q ≠ ')' :: (d :: ds ++ '(' :: q') := by
  intro same
  obtain ⟨s, read⟩ := has
  have ending := wf.ending_of_backward read same
  have digit := digits d List.mem_cons_self
  cases s with
  | function result params variadic =>
    rw [wf.backward_eq read, Shape.backward, List.cons_append] at same
    have inside := (List.cons.inj same).2
    cases items : itemsOf params variadic with
    | nil =>
      rw [items] at inside
      rw [← (List.cons.inj inside).1] at digit
      exact absurd digit (by decide)
    | cons item others =>
      rw [items, behind, List.append_assoc] at inside
      cases item with
      | none =>
        rw [← (List.cons.inj inside).1] at digit
        exact absurd digit (by decide)
      | some u =>
        have listed : u ∈ params := mem_itemsOf.mp (items ▸ List.mem_cons_self)
        have known : ctx.HasType u := wf.hasType_inner read (List.mem_cons_of_mem _ listed)
        exact wf.not_digits_before_paren known digits inside
  | void | label | integer | pointer | array => exact absurd ending (by simp [endingOf, Shape.ending])

theorem WellFormed.space_inj (wf : ctx.WellFormed) (has : ctx.HasType t) (has' : ctx.HasType t')
    {space space' : AddressSpace} (same : space.text.toList.reverse ++ (ctx.backward t ++ q) =
      space'.text.toList.reverse ++ (ctx.backward t' ++ q')) :
    space = space' ∧ ctx.backward t ++ q = ctx.backward t' ++ q' := by
  have generic : AddressSpace.generic.text.toList.reverse = [] := by decide
  have mixed {t t' : TypeRef} {q q' : List Char} {space : AddressSpace} (has : ctx.HasType t)
      (marked : space ≠ .generic) :
      ctx.backward t ++ q ≠ space.text.toList.reverse ++ (ctx.backward t' ++ q') := by
    intro same
    rw [AddressSpace.reverse_text marked] at same
    cases digits : (Nat.toDigits 10 space.code).reverse with
    | nil => exact absurd (List.reverse_eq_nil_iff.mp digits) Nat.toDigits_ne_nil
    | cons d ds =>
      rw [digits] at same
      simp only [List.cons_append, List.append_assoc] at same
      exact wf.not_space has (digits ▸ isDigit_of_mem_reverse) same
  by_cases plain : space = .generic <;> by_cases plain' : space' = .generic
  · subst plain plain'
    exact ⟨rfl, List.append_cancel_left same⟩
  · rw [plain, generic, List.nil_append] at same
    exact absurd same (mixed has plain')
  · rw [plain', generic, List.nil_append] at same
    exact absurd same.symm (mixed has' plain)
  · rw [AddressSpace.reverse_text plain, AddressSpace.reverse_text plain'] at same
    simp only [List.cons_append, List.append_assoc, List.cons.injEq, true_and] at same
    obtain ⟨codes, rests⟩ := reverse_toDigits_inj (stops_cons.mpr (by decide))
      (stops_cons.mpr (by decide)) same
    exact ⟨AddressSpace.code_injective codes, by simpa using rests⟩

theorem WellFormed.ending_lt_of_backward (wf : ctx.WellFormed) (has : ctx.HasType t) {c : Char}
    (same : ctx.backward t ++ q = c :: q') : endingOf c < 6 := by
  obtain ⟨s, read⟩ := has
  rw [wf.ending_of_backward read same]
  exact s.ending_lt

theorem WellFormed.spellItem_inj (wf : ctx.WellFormed) {i i' : Option TypeRef}
    (has : ∀ u, i = some u → ctx.HasType u) (has' : ∀ u, i' = some u → ctx.HasType u)
    (code : ∀ u u' r r', i = some u → i' = some u' →
      ctx.backward u ++ r = ctx.backward u' ++ r' → u = u' ∧ r = r')
    (same : spellItem ctx.backward i ++ q = spellItem ctx.backward i' ++ q') : i = i' ∧ q = q' := by
  cases i with
  | none =>
    cases i' with
    | none => exact ⟨rfl, List.append_cancel_left same⟩
    | some u' => exact absurd (wf.ending_lt_of_backward (has' u' rfl) same.symm) (by decide)
  | some u =>
    cases i' with
    | none => exact absurd (wf.ending_lt_of_backward (has u rfl) same) (by decide)
    | some u' =>
      obtain ⟨rfl, rests⟩ := code u u' q q' rfl rfl same
      exact ⟨rfl, rests⟩

/-- A type is known from the end of a text, and so is what stands before it. -/
theorem WellFormed.backward_inj (wf : ctx.WellFormed) (has : ctx.HasType t) :
    ∀ t' q q', ctx.HasType t' → ctx.backward t ++ q = ctx.backward t' ++ q' → t = t' ∧ q = q' := by
  refine wf.type_induction (motive := fun t => ∀ t' q q', ctx.HasType t' →
    ctx.backward t ++ q = ctx.backward t' ++ q' → t = t' ∧ q = q') ?_ has
  rintro t s read inner t' q q' ⟨s', read'⟩ same
  have inner' {u : TypeRef} (mem : u ∈ s'.inner) : ctx.HasType u := wf.hasType_inner read' mem
  suffices alike : s = s' ∧ q = q' by
    obtain ⟨rfl, rests⟩ := alike
    have found := (wf.typeTable s t).mpr read
    rw [(wf.typeTable s t').mpr read'] at found
    exact ⟨(Option.some.inj found).symm, rests⟩
  have endings : s.ending = s'.ending := by
    obtain ⟨c, rest, spelled, ending⟩ := s.backward_head ctx.backward
    rw [wf.backward_eq read, spelled] at same
    rw [← ending, wf.ending_of_backward read' same.symm]
  rw [wf.backward_eq read, wf.backward_eq read'] at same
  cases s with
  | void =>
    cases s' with
    | void => exact ⟨rfl, List.append_cancel_left same⟩
    | _ => cases endings
  | label =>
    cases s' with
    | label => exact ⟨rfl, List.append_cancel_left same⟩
    | _ => cases endings
  | integer bits =>
    cases s' with
    | integer bits' =>
      rw [Shape.backward, Shape.backward, List.append_assoc, List.append_assoc] at same
      obtain ⟨rfl, marks⟩ := reverse_toDigits_inj (stops_cons.mpr (by decide))
        (stops_cons.mpr (by decide)) same
      exact ⟨rfl, (List.cons.inj marks).2⟩
    | _ => cases endings
  | pointer pointee space =>
    cases s' with
    | pointer pointee' space' =>
      have known := inner pointee List.mem_cons_self
      rw [Shape.backward, Shape.backward, List.append_assoc, List.append_assoc] at same
      obtain ⟨rfl, pointees⟩ := wf.space_inj known.1 (inner' List.mem_cons_self)
        (List.cons.inj same).2
      obtain ⟨rfl, rests⟩ := known.2 pointee' _ _ (inner' List.mem_cons_self) pointees
      exact ⟨rfl, rests⟩
    | _ => cases endings
  | array element length =>
    cases s' with
    | array element' length' =>
      have known := inner element List.mem_cons_self
      simp only [Shape.backward, List.cons_append, List.append_assoc, List.cons.injEq,
        true_and] at same
      obtain ⟨rfl, lengths⟩ := known.2 element' _ _ (inner' List.mem_cons_self) same
      simp only [List.cons.injEq, true_and] at lengths
      obtain ⟨rfl, marks⟩ := reverse_toDigits_inj (stops_cons.mpr (by decide))
        (stops_cons.mpr (by decide)) lengths
      exact ⟨rfl, (List.cons.inj marks).2⟩
    | _ => cases endings
  | function result params variadic =>
    cases s' with
    | function result' params' variadic' =>
      have items {ps : List TypeRef} {v : Bool} (typed : ∀ u ∈ ps, ctx.HasType u)
          {i : Option TypeRef} (mem : i ∈ itemsOf ps v) (u : TypeRef) (is : i = some u) :
          ctx.HasType u := typed u (mem_itemsOf.mp (is ▸ mem))
      have typed (u : TypeRef) (mem : u ∈ params) := (inner u (List.mem_cons_of_mem _ mem)).1
      have typed' (u : TypeRef) (mem : u ∈ params') := inner' (List.mem_cons_of_mem result' mem)
      simp only [Shape.backward, List.cons_append, List.cons.injEq, true_and, behind_append] at same
      have code : ∀ i ∈ itemsOf params variadic, ∀ i' ∈ itemsOf params' variadic', ∀ r r',
          spellItem ctx.backward i ++ r = spellItem ctx.backward i' ++ r' → i = i' ∧ r = r' := by
        intro i mem i' mem' r r' equal
        refine wf.spellItem_inj (items typed mem) (items typed' mem') ?_ equal
        rintro u u' r r' rfl rfl equal
        exact (inner u (List.mem_cons_of_mem _ (mem_itemsOf.mp mem))).2 u' r r'
          (items typed' mem' u' rfl) equal
      have closed : ∀ i ∈ itemsOf params variadic ++ itemsOf params' variadic', ∀ r r',
          spellItem ctx.backward i ++ r ≠ '(' :: r' := by
        intro i mem r r' equal
        cases i with
        | none => exact absurd (List.cons.inj equal).1 (by decide)
        | some u =>
          have known : ctx.HasType u := (List.mem_append.mp mem).elim
            (items typed · u rfl) (items typed' · u rfl)
          exact absurd (wf.ending_lt_of_backward known equal) (by decide)
      obtain ⟨alike, results⟩ := behind_inj code closed same
      obtain ⟨rfl, rfl⟩ := itemsOf_inj alike
      obtain ⟨rfl, rests⟩ := (inner result List.mem_cons_self).2 result' _ _
        (inner' List.mem_cons_self) (List.cons.inj results).2
      exact ⟨rfl, rests⟩
    | _ => cases endings

theorem WellFormed.typeText_injective (wf : ctx.WellFormed) (has : ctx.HasType t)
    (has' : ctx.HasType t') (same : ctx.typeText t = ctx.typeText t') : t = t' :=
  (wf.backward_inj has t' [] [] has' (by rw [backward, backward, same])).1

end Context
end ModuleIR
