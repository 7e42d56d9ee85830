import ModuleIR.Listing.Modules
import ModuleIR.Proofs.Arena.Reads
import ModuleIR.Proofs.WideInt.Digits

set_option autoImplicit false

/-!
# Lines of a listing

Every name and every byte array passes through escaping before it is listed, so that what is listed of
an entity is printable whatever its name is. The lines of a module are therefore fixed by what the
module holds: `Context.moduleRows` says from the records alone which lines there are, and
`lays_module` that the listing has these lines. The one text that is listed as it was given is the
name of the module.
-/
namespace ModuleIR

open Text

/-! ### Printable pieces -/

theorem printable_intercalate {separator : String} (h : Printable separator) {ss : List String}
    (each : ∀ s ∈ ss, Printable s) : Printable (separator.intercalate ss) := by
  induction ss with
  | nil =>
    rw [String.intercalate_nil]
    decide
  | cons s rest ih =>
    rw [List.forall_mem_cons] at each
    cases rest with
    | nil =>
      rw [String.intercalate_singleton]
      exact each.1
    | cons second rest =>
      rw [String.intercalate_cons_cons]
      simp only [printable_append]
      exact ⟨⟨each.1, h⟩, ih each.2⟩

theorem Context.printable_describeTypeWithin {ctx : Context} {depth : Nat} {t : TypeRef}
    {text : String} (written : ctx.describeTypeWithin depth t = .ok text) : Printable text := by
  induction depth generalizing t text with
  | zero => cases written
  | succ depth ih =>
    obtain ⟨s, _, written⟩ := Checked.bind_eq_ok.mp written
    cases s with
    | void | label =>
      obtain rfl := Except.ok.inj written
      decide
    | integer bits =>
      obtain rfl := Except.ok.inj written
      exact printable_append.mpr ⟨by decide, printable_toString _⟩
    | pointer pointee space =>
      obtain ⟨inner, pointee, written⟩ := Checked.bind_eq_ok.mp written
      obtain rfl := Except.ok.inj written
      have marked : Printable space.text := by
        cases space <;> decide
      simp only [printable_append]
      exact ⟨⟨ih pointee, marked⟩, by decide⟩
    | array element length =>
      obtain ⟨inner, element, written⟩ := Checked.bind_eq_ok.mp written
      obtain rfl := Except.ok.inj written
      simp only [printable_append]
      exact ⟨⟨⟨⟨by decide, printable_toString _⟩, by decide⟩, ih element⟩, by decide⟩
    | function result params variadic =>
      obtain ⟨first, result, written⟩ := Checked.bind_eq_ok.mp written
      obtain ⟨texts, params, written⟩ := Checked.bind_eq_ok.mp written
      obtain rfl := Except.ok.inj written
      have listed : Printable (", ".intercalate (texts ++ (if variadic = true then ["..."] else []))) := by
        refine printable_intercalate (by decide) fun s mem => ?_
        rcases List.mem_append.mp mem with param | dots
        · obtain ⟨p, _, param⟩ := Checked.mem_of_mapM params param
          exact ih param
        · split at dots
          · rw [List.mem_singleton.mp dots]
            decide
          · cases dots
      simp only [printable_append]
      exact ⟨⟨⟨ih result, by decide⟩, listed⟩, by decide⟩

theorem Context.printable_describeType {ctx : Context} {t : TypeRef} {text : String}
    (written : ctx.describeType t = .ok text) : Printable text :=
  printable_describeTypeWithin written

theorem Context.printable_describeTypeOf {ctx : Context} {v : ValueRef} {text : String}
    (written : ctx.describeTypeOf v = .ok text) : Printable text := by
  obtain ⟨_, _, written⟩ := describeTypeOf_eq_ok.mp written
  exact printable_describeType written

theorem printable_integerText (n : WideInt) : Printable (integerText n) := by
  unfold integerText
  split
  · split <;> decide
  · exact n.printable_decimal

theorem printable_bytesText (bytes : List UInt8) : Printable (bytesText bytes) := by
  unfold bytesText
  split
  · decide
  · simp only [printable_append]
    exact ⟨⟨by decide, printable_quotedBytes bytes⟩, by decide⟩

namespace Listing

theorem printable_conventionText (cc : CallingConv) : Printable (conventionText cc) := by
  cases cc <;> decide

theorem printable_linkageText (l : Linkage) : Printable (linkageText l) := by
  cases l <;> decide

def Clean (l : Listing) : Prop := ∀ text, Piece.text text ∈ l → Printable text

variable {l l' : Listing} {ctx : Context} {slots : Slots}

@[simp] theorem clean_nil : Clean [] := by simp [Clean]

@[simp] theorem clean_text {text : String} :
    Clean (.text text :: l) ↔ Printable text ∧ l.Clean := by
  simp [Clean]

@[simp] theorem clean_unresolved : Clean (.unresolved :: l) ↔ l.Clean := by simp [Clean]

@[simp] theorem clean_fault {violation : Violation} : Clean (.fault violation :: l) ↔ l.Clean := by
  simp [Clean]

@[simp] theorem clean_append : Clean (l ++ l') ↔ l.Clean ∧ l'.Clean := by
  simp only [Clean, List.mem_append, or_imp, forall_and]

@[simp] theorem clean_referent {name : Option String} {slot : Option Nat} :
    Clean (referent name slot :: l) ↔ l.Clean := by
  cases name with
  | some name => exact clean_text.trans (and_iff_right (printable_ident name))
  | none =>
    cases slot with
    | some number => exact clean_text.trans (and_iff_right (printable_toString number))
    | none => exact clean_unresolved

theorem clean_flatMap {α : Type} {next : α → Listing} {as : List α}
    (each : ∀ a, (next a).Clean) : Clean (as.flatMap next) := by
  induction as with
  | nil => simp
  | cons a rest ih => simp [each, ih]

theorem clean_separated {separator : String} (h : Printable separator) {ls : List Listing}
    (each : ∀ l ∈ ls, l.Clean) : Clean (separated separator ls) := by
  induction ls with
  | nil => exact clean_nil
  | cons first rest ih =>
    rw [List.forall_mem_cons] at each
    cases rest with
    | nil => exact each.1
    | cons second rest => simp [separated, each.1, h, ih each.2]

theorem clean_reading {α : Type} {read : Checked α} {next : α → Listing}
    (each : ∀ a, read = .ok a → (next a).Clean) : Clean (reading read next) := by
  cases read with
  | ok a => exact each a rfl
  | error violation => simp [reading]

theorem Clean.render (clean : l.Clean) {text : String} (done : l.render = .ok text) :
    Printable text := by
  induction l generalizing text with
  | nil =>
    obtain rfl := Except.ok.inj done
    decide
  | cons piece rest ih =>
    rw [render_cons] at done
    obtain ⟨first, content, done⟩ := Checked.bind_eq_ok.mp done
    obtain ⟨others, rendered, done⟩ := Checked.bind_eq_ok.mp done
    obtain rfl := Except.ok.inj done
    have clean' : Clean rest := fun t mem => clean t (List.mem_cons_of_mem _ mem)
    refine printable_append.mpr ⟨?_, ih clean' rendered⟩
    cases piece with
    | text t =>
      obtain rfl := Except.ok.inj content
      exact clean _ List.mem_cons_self
    | unresolved =>
      obtain rfl := Except.ok.inj content
      decide
    | fault => cases content

/-! ### What is listed of an entity -/

theorem clean_refWithin (depth : Nat) (v : ValueRef) : Clean (refWithin ctx slots depth v) := by
  induction depth generalizing v with
  | zero => simp [refWithin]
  | succ depth ih =>
    refine clean_reading fun r _ => ?_
    have operand (u : ValueRef) : Clean (reading (ctx.describeTypeOf u) fun type =>
        .text (type ++ " ") :: refWithin ctx slots depth u) :=
      clean_reading fun type written =>
        clean_text.mpr ⟨printable_append.mpr ⟨Context.printable_describeTypeOf written, by decide⟩, ih u⟩
    cases r.kind with
    | int n => simpa using printable_integerText n
    | bytes bytes => simpa using printable_bytesText bytes
    | elementPtr e =>
      have marked : Printable (if e.inBounds = true then "inbounds " else "") := by
        split <;> decide
      have others : Clean (e.indices.flatMap fun i => .text ", " :: reading (ctx.describeTypeOf i)
          fun type => .text (type ++ " ") :: refWithin ctx slots depth i) :=
        clean_flatMap fun i => clean_text.mpr ⟨by decide, operand i⟩
      refine clean_reading fun source written => ?_
      have source := Context.printable_describeType written
      simp only [clean_text, clean_append, List.cons_append, printable_append, operand, others, marked,
        source, clean_nil, and_true, true_and]
      decide
    | global | function | argument | instruction =>
      simp only [clean_text, clean_referent, clean_nil, and_true]
      decide
    | erased => simp

@[simp] theorem clean_ref (v : ValueRef) : Clean (ref ctx slots v) := clean_refWithin _ v

@[simp] theorem clean_operand (v : ValueRef) : Clean (operand ctx slots v) :=
  clean_reading fun _ written =>
    clean_text.mpr ⟨printable_append.mpr ⟨Context.printable_describeTypeOf written, by decide⟩, clean_ref v⟩

@[simp] theorem clean_blockRef (b : BlockRef) : Clean (blockRef ctx slots b) := by
  refine clean_text.mpr ⟨by decide, clean_reading fun r _ => ?_⟩
  simp

theorem clean_operation (type : TypeRef) (o : Operation) : Clean (operation ctx slots type o) := by
  cases o with
  | call callee args convention =>
    have called : ∀ text, calledTypeText ctx callee type = .ok text → Printable text := by
      intro text read
      obtain ⟨found, _, read⟩ := Checked.bind_eq_ok.mp read
      cases found with
      | none => exact Context.printable_describeType read
      | some signature =>
        obtain ⟨⟨_, _, variadic⟩, _, read⟩ := Checked.bind_eq_ok.mp read
        cases variadic with
        | false => exact Context.printable_describeType read
        | true => exact Context.printable_describeTypeOf read
    have listed : Clean (separated ", " (args.map (operand ctx slots))) :=
      clean_separated (by decide) fun l mem => by
        obtain ⟨a, _, rfl⟩ := List.mem_map.mp mem
        exact clean_operand a
    refine clean_text.mpr ⟨printable_append.mpr ⟨by decide, printable_conventionText _⟩,
      clean_reading fun text read => ?_⟩
    simp only [clean_text, clean_append, List.cons_append, printable_append, clean_ref, listed,
      called text read, clean_nil, and_true, true_and]
    decide
  | ret value =>
    cases value with
    | none => simpa [operation] using (by decide : Printable "ret void")
    | some v => simpa [operation] using (by decide : Printable "ret ")
  | br target => simpa [operation] using (by decide : Printable "br label ")
  | condBr cond ifTrue ifFalse =>
    have pieces : Printable "br " ∧ Printable ", label " := by decide
    simp [operation, pieces]

theorem clean_instruction (i : InstructionRef) : Clean (instruction ctx slots i) := by
  refine clean_reading fun r _ => clean_reading fun shape _ => clean_append.mpr ⟨?_, ?_⟩
  · split
    · exact clean_nil
    · simpa using (by decide : Printable " = ")
  · exact clean_reading fun o _ => clean_operation r.type o

theorem clean_globalLine (g : GlobalRef) : Clean (globalLine ctx slots g) := by
  refine clean_append.mpr ⟨clean_ref _, clean_reading fun r _ => clean_reading fun type written => ?_⟩
  have typed := Context.printable_describeType written
  have space : Printable (if r.space = .generic then "" else
      "addrspace(" ++ toString r.space.code ++ ") ") := by
    cases r.space <;> decide
  have marked (condition : Prop) [Decidable condition] {mark mark' : String}
      (printable : Printable mark ∧ Printable mark') :
      Printable (if condition then mark else mark') := by
    split
    · exact printable.1
    · exact printable.2
  refine clean_text.mpr ⟨?_, ?_⟩
  · simp only [printable_append, printable_linkageText, space, typed, and_true]
    refine ⟨⟨⟨⟨by decide, marked _ (by decide)⟩, ?threadLocal⟩, marked _ (by decide)⟩,
      marked _ (by decide)⟩
    cases r.threadLocal <;> decide
  · split
    · exact clean_text.mpr ⟨by decide, clean_ref _⟩
    · exact clean_nil

theorem clean_parameter (declared : Bool) (a : ArgumentRef) :
    Clean (parameter ctx slots declared a) := by
  unfold parameter
  split
  · exact clean_reading fun type written =>
      clean_text.mpr ⟨Context.printable_describeTypeOf written, clean_nil⟩
  · exact clean_operand _

end Listing

/-! ### Rows -/

/-- A line of a module's text, for what it stands. -/
inductive Row where
  | comment
  | blank
  | global (g : GlobalRef)
  | declaration (f : FunctionRef)
  | header (f : FunctionRef)
  | label (b : BlockRef)
  | instruction (i : InstructionRef)
  | closing
  deriving DecidableEq, Repr

def Row.isEntity : Row → Bool
  | .global _ | .instruction _ => true
  | _ => false

namespace Context

/-- A separator unless the block is the first, a label unless the first has no name, and the
instructions. -/
def blockRows (ctx : Context) (first : Bool) (b : BlockRef) : Checked (List Row) := do
  let br ← ctx.block b
  return (if first then [] else [.blank]) ++ (if first && br.name.isNone then [] else [.label b]) ++
    br.instructions.map .instruction

def bodyRows (ctx : Context) : Bool → List BlockRef → Checked (List Row)
  | _, [] => return []
  | first, b :: rest => do return (← ctx.blockRows first b) ++ (← ctx.bodyRows false rest)

def functionRows (ctx : Context) (f : FunctionRef) : Checked (List Row) := do
  let fr ← ctx.function f
  if fr.blocks.isEmpty then return [.declaration f]
  else return .header f :: (← ctx.bodyRows true fr.blocks) ++ [.closing]

def functionsRows (ctx : Context) : List FunctionRef → Checked (List Row)
  | [] => return []
  | f :: rest => do return .blank :: (← ctx.functionRows f) ++ (← ctx.functionsRows rest)

def moduleRows (ctx : Context) (m : ModuleRef) : Checked (List Row) := do
  let mr ← ctx.module m
  return (if mr.globals.isEmpty then [] else [.blank]) ++ mr.globals.map .global ++
    (← ctx.functionsRows mr.functions)

def HeadOf (ctx : Context) (f : FunctionRef) (inside : String) : Prop :=
  ∃ slots attributes name parameters, (Listing.ref ctx slots f.value).render = .ok name ∧
    inside = attributes ++ name ++ "(" ++ parameters

/-- The line is one of this kind. -/
def FitsRow (ctx : Context) : Row → String → Prop
  | .comment, line => ∃ name, line = "; ModuleID = '" ++ name ++ "'"
  | .blank, line => line = ""
  | .global g, line => ∃ slots, (Listing.globalLine ctx slots g).render = .ok line
  | .declaration f, line => ∃ inside, ctx.HeadOf f inside ∧ line = "declare " ++ inside ++ ")"
  | .header f, line => ∃ inside, ctx.HeadOf f inside ∧ line = "define " ++ inside ++ ") \x7b"
  | .label b, line => ∃ br, ctx.block b = .ok br ∧
    ((∃ name, br.name = some name ∧ line = ident name ++ ":") ∨
      (br.name = none ∧ ∃ number : Nat, line = "; <label>:" ++ toString number))
  | .instruction i, line => ∃ slots inside,
    (Listing.instruction ctx slots i).render = .ok inside ∧ line = "  " ++ inside
  | .closing, line => line = "\x7d"

structure FitRows (ctx : Context) (rows : List Row) (lines : List String) : Prop where
  each : List.Forall₂ ctx.FitsRow rows lines
  printable : ∀ line ∈ lines, Printable line

end Context

def unlines : List String → String
  | [] => ""
  | line :: rest => line ++ "\n" ++ unlines rest

@[simp] theorem unlines_append (ls ls' : List String) :
    unlines (ls ++ ls') = unlines ls ++ unlines ls' := by
  induction ls with
  | nil => exact (String.empty_append).symm
  | cons line rest ih => simp only [List.cons_append, unlines, ih, String.append_assoc]

theorem toList_unlines_cons (line : String) (rest : List String) :
    (unlines (line :: rest)).toList = line.toList ++ '\n' :: (unlines rest).toList := by
  simp only [unlines, String.toList_append]
  exact List.append_assoc _ ['\n'] _

theorem not_mem_newline {s : String} (h : Printable s) : '\n' ∉ s.toList := fun mem =>
  absurd (h '\n' mem) (by decide)

/-- Printable lines are as many as there are ends of lines in their text. -/
theorem count_unlines {ls : List String} (h : ∀ line ∈ ls, Printable line) :
    (unlines ls).toList.count '\n' = ls.length := by
  induction ls with
  | nil => rfl
  | cons line rest ih =>
    rw [List.forall_mem_cons] at h
    rw [toList_unlines_cons, List.count_append, List.count_cons_self, ih h.2,
      List.count_eq_zero.mpr (not_mem_newline h.1), List.length_cons, Nat.zero_add]

theorem isPrintable_of_mem_unlines {ls : List String} (h : ∀ line ∈ ls, Printable line) {c : Char}
    (mem : c ∈ (unlines ls).toList) : c = '\n' ∨ isPrintable c = true := by
  induction ls with
  | nil => cases mem
  | cons line rest ih =>
    rw [List.forall_mem_cons] at h
    rw [toList_unlines_cons, List.mem_append, List.mem_cons] at mem
    rcases mem with front | rfl | back
    · exact .inr (h.1 c front)
    · exact .inl rfl
    · exact ih h.2 back

namespace Listing

variable {ctx : Context} {l l' : Listing}

theorem render_append_eq_ok {text : String} : (l ++ l').render = .ok text ↔
    ∃ first second, l.render = .ok first ∧ l'.render = .ok second ∧ text = first ++ second := by
  rw [render_append]
  constructor
  · intro done
    obtain ⟨first, front, done⟩ := Checked.bind_eq_ok.mp done
    obtain ⟨second, back, done⟩ := Checked.bind_eq_ok.mp done
    exact ⟨first, second, front, back, (Except.ok.inj done).symm⟩
  · rintro ⟨first, second, front, back, rfl⟩
    rw [front, back]
    rfl

theorem render_text_eq_ok {first text : String} : render (.text first :: l) = .ok text ↔
    ∃ second, l.render = .ok second ∧ text = first ++ second := by
  rw [render_cons]
  simp only [Piece.content, Checked.ok_bind]
  constructor
  · intro done
    obtain ⟨second, back, done⟩ := Checked.bind_eq_ok.mp done
    exact ⟨second, back, (Except.ok.inj done).symm⟩
  · rintro ⟨second, back, rfl⟩
    rw [back]
    rfl

theorem render_reading_eq_ok {α : Type} {read : Checked α} {next : α → Listing} {text : String} :
    (reading read next).render = .ok text ↔ ∃ a, read = .ok a ∧ (next a).render = .ok text := by
  cases read with
  | ok a => simp [reading]
  | error violation => simp [reading, render, renderOnto, Piece.content]

/-- Where the listing has a text, it is that of printable lines that fit the rows. -/
def Lays (fits : Row → String → Prop) (l : Listing) (rows : Checked (List Row)) : Prop :=
  ∀ text, l.render = .ok text → ∃ rs lines, rows = .ok rs ∧ text = unlines lines ∧
    List.Forall₂ fits rs lines ∧ ∀ line ∈ lines, Printable line

variable {fits : Row → String → Prop}

theorem lays_nil : Lays fits [] (.ok []) := by
  intro text done
  obtain rfl := Except.ok.inj done
  exact ⟨[], [], rfl, rfl, .nil, by simp⟩

theorem Lays.append {rows rows' : Checked (List Row)} (front : Lays fits l rows)
    (back : Lays fits l' rows') :
    Lays fits (l ++ l') (do return (← rows) ++ (← rows')) := by
  intro text rendered
  obtain ⟨first, second, done, done', rfl⟩ := render_append_eq_ok.mp rendered
  obtain ⟨rs, lines, rfl, rfl, each, printable⟩ := front _ done
  obtain ⟨rs', lines', rfl, rfl, each', printable'⟩ := back _ done'
  exact ⟨rs ++ rs', lines ++ lines', rfl, (unlines_append _ _).symm, List.rel_append each each',
    fun line mem => (List.mem_append.mp mem).elim (printable line) (printable' line)⟩

theorem lays_line {row : Row} (clean : l.Clean)
    (shown : ∀ line, l.render = .ok line → fits row line) :
    Lays fits (l ++ [.text "\n"]) (.ok [row]) := by
  intro text rendered
  obtain ⟨line, _, done, ending, rfl⟩ := render_append_eq_ok.mp rendered
  obtain rfl := Except.ok.inj ending
  refine ⟨[row], [line], rfl, ?_, .cons (shown line done) .nil, ?_⟩
  · simp [unlines]
  · simpa using clean.render done

theorem lays_lastPiece {row : Row} (last : String) (clean : l.Clean) (printable : Printable last)
    (shown : ∀ line, l.render = .ok line → fits row (line ++ last)) :
    Lays fits (l ++ [.text (last ++ "\n")]) (.ok [row]) := by
  intro text rendered
  obtain ⟨line, _, done, ending, rfl⟩ := render_append_eq_ok.mp rendered
  obtain rfl := Except.ok.inj ending
  refine ⟨[row], [line ++ last], rfl, ?_, .cons (shown line done) .nil, ?_⟩
  · simp [unlines, String.append_assoc]
  · simpa [printable] using clean.render done

theorem lays_reading {α : Type} {read : Checked α} {next : α → Listing}
    {rows : Checked (List Row)} (each : ∀ a, read = .ok a → Lays fits (next a) rows) :
    Lays fits (reading read next) rows := by
  intro text rendered
  obtain ⟨a, found, done⟩ := render_reading_eq_ok.mp rendered
  exact each a found text done

/-! ### The lines of a module -/

/-- A relation of rows to lines that says no more than the records do, except about the lines that
belong to an entity alone. -/
def Plain (ctx : Context) (fits : Row → String → Prop) : Prop :=
  ∀ row line, row.isEntity = false → ctx.FitsRow row line → fits row line

def Shows (ctx : Context) (fits : Row → String → Prop) (slots : Slots)
    (is : List InstructionRef) : Prop :=
  ∀ i ∈ is, ∀ inside, (instruction ctx slots i).render = .ok inside →
    fits (.instruction i) ("  " ++ inside)

def ShowsBody (ctx : Context) (fits : Row → String → Prop) (slots : Slots)
    (bs : List BlockRef) : Prop :=
  ∀ b ∈ bs, ∀ br, ctx.block b = .ok br → Shows ctx fits slots br.instructions

theorem lays_blank (plain : Plain ctx fits) : Lays fits [.text "\n"] (.ok [.blank]) :=
  lays_line clean_nil fun _ done => plain _ _ rfl (Except.ok.inj done).symm

theorem lays_instructionLines {slots : Slots} {is : List InstructionRef}
    (shows : Shows ctx fits slots is) :
    Lays fits (instructionLines ctx slots is) (.ok (is.map .instruction)) := by
  induction is with
  | nil => exact lays_nil
  | cons i rest ih =>
    have line : Lays fits ((.text "  " :: instruction ctx slots i) ++ [.text "\n"])
        (.ok [.instruction i]) := by
      refine lays_line (clean_text.mpr ⟨by decide, clean_instruction i⟩)
        fun line rendered => ?_
      obtain ⟨inside, done, rfl⟩ := render_text_eq_ok.mp rendered
      exact shows i List.mem_cons_self inside done
    exact line.append (ih fun j mem => shows j (List.mem_cons_of_mem _ mem))

theorem lays_labelLine (plain : Plain ctx fits) (slots : Slots) (first : Bool) {b : BlockRef}
    {br : BlockRecord} (block : ctx.block b = .ok br) :
    Lays fits (labelLine slots first b br.name)
      (.ok (if first && br.name.isNone then [] else [.label b])) := by
  cases name : br.name with
  | some name' =>
    have line : Lays fits ([] ++ [.text (ident name' ++ ":" ++ "\n")]) (.ok [.label b]) := by
      refine lays_lastPiece _ clean_nil ?_ fun line done => plain _ _ rfl ?_
      · exact printable_append.mpr ⟨printable_ident name', by decide⟩
      · obtain rfl := Except.ok.inj done
        exact ⟨br, block, .inl ⟨name', name, by simp⟩⟩
    simpa [labelLine, String.append_assoc] using line
  | none =>
    cases first with
    | true => exact lays_nil
    | false =>
      have line (number : Nat) :
          Lays fits ([] ++ [.text ("; <label>:" ++ toString number ++ "\n")]) (.ok [.label b]) := by
        refine lays_lastPiece _ clean_nil ?_ fun line done => plain _ _ rfl ?_
        · exact printable_append.mpr ⟨by decide, printable_toString number⟩
        · obtain rfl := Except.ok.inj done
          exact ⟨br, block, .inr ⟨name, number, by simp⟩⟩
      exact line _

theorem lays_blockLines (plain : Plain ctx fits) {slots : Slots} (first : Bool) {b : BlockRef}
    (shows : ∀ br, ctx.block b = .ok br → Shows ctx fits slots br.instructions) :
    Lays fits (blockLines ctx slots first b) (ctx.blockRows first b) := by
  have separator : Lays fits (if first then [] else [.text "\n"])
      (.ok (if first then [] else [.blank])) := by
    cases first
    · exact lays_blank plain
    · exact lays_nil
  intro text rendered
  obtain ⟨front, back, done, done', rfl⟩ := render_append_eq_ok.mp rendered
  obtain ⟨br, block, done'⟩ := render_reading_eq_ok.mp done'
  have lays := separator.append ((lays_labelLine plain slots first block).append
    (lays_instructionLines (shows br block)))
  have rows : ctx.blockRows first b = .ok ((if first then [] else [.blank]) ++
      ((if first && br.name.isNone then [] else [.label b]) ++
        br.instructions.map .instruction)) := by
    rw [Context.blockRows, block, ← List.append_assoc]
    rfl
  rw [rows]
  exact lays _ (render_append_eq_ok.mpr ⟨_, _, done, done', rfl⟩)

theorem lays_bodyLines (plain : Plain ctx fits) {slots : Slots} {bs : List BlockRef}
    (shows : ShowsBody ctx fits slots bs) :
    Lays fits (bodyLines ctx slots bs) (ctx.bodyRows true bs) := by
  have later {rest : List BlockRef} (shows : ShowsBody ctx fits slots rest) :
      Lays fits (rest.flatMap (blockLines ctx slots false)) (ctx.bodyRows false rest) := by
    induction rest with
    | nil => exact lays_nil
    | cons b rest ih =>
      exact (lays_blockLines plain false (shows b List.mem_cons_self)).append
        (ih fun c mem => shows c (List.mem_cons_of_mem _ mem))
  cases bs with
  | nil => exact lays_nil
  | cons b rest =>
    exact (lays_blockLines plain true (shows b List.mem_cons_self)).append
      (later fun c mem => shows c (List.mem_cons_of_mem _ mem))

theorem clean_parameters (slots : Slots) (declared variadic : Bool) (args : List ArgumentRef) :
    Clean (separated ", " (args.map (parameter ctx slots declared) ++
      (if variadic then [[.text "..."]] else []))) := by
  refine clean_separated (by decide) fun l mem => ?_
  rcases List.mem_append.mp mem with param | dots
  · obtain ⟨a, _, rfl⟩ := List.mem_map.mp param
    exact clean_parameter declared a
  · split at dots
    · rw [List.mem_singleton.mp dots]
      exact clean_text.mpr ⟨by decide, clean_nil⟩
    · cases dots

def functionHead (ctx : Context) (slots : Slots) (f : FunctionRef) (record : FunctionRecord)
    (type : String) (variadic : Bool) : Listing :=
  .text ((if record.blocks.isEmpty then "declare " else "define ") ++ linkageText record.linkage ++
      conventionText record.convention ++ type ++ " ") ::
    ref ctx slots f.value ++
    .text "(" :: separated ", " (record.args.map (parameter ctx slots record.blocks.isEmpty) ++
      (if variadic then [[.text "..."]] else []))

theorem clean_functionHead (slots : Slots) (f : FunctionRef) (record : FunctionRecord)
    {type : String} (typed : Printable type) (variadic : Bool) :
    Clean (functionHead ctx slots f record type variadic) := by
  have keyword : Printable (if record.blocks.isEmpty then "declare " else "define ") := by
    split <;> decide
  refine clean_append.mpr ⟨clean_text.mpr ⟨?_, clean_ref _⟩,
    clean_text.mpr ⟨by decide, clean_parameters _ _ _ _⟩⟩
  simp only [printable_append, keyword, printable_linkageText, printable_conventionText, typed,
    true_and]
  decide

theorem starts_of_functionHead {slots : Slots} {f : FunctionRef} {record : FunctionRecord}
    {type : String} {variadic : Bool} {line : String}
    (rendered : (functionHead ctx slots f record type variadic).render = .ok line) :
    ∃ inside, ctx.HeadOf f inside ∧
      line = (if record.blocks.isEmpty then "declare " else "define ") ++ inside := by
  obtain ⟨_, _, front, back, rfl⟩ := render_append_eq_ok.mp rendered
  obtain ⟨name, reference, rfl⟩ := render_text_eq_ok.mp front
  obtain ⟨parameters, _, rfl⟩ := render_text_eq_ok.mp back
  refine ⟨_, ⟨slots, linkageText record.linkage ++ conventionText record.convention ++
    type ++ " ", name, parameters, reference, rfl⟩, ?_⟩
  simp only [String.append_assoc]

theorem lays_functionLines (plain : Plain ctx fits) {globals : List ValueRef} {f : FunctionRef}
    (shows : ∀ locals fr, ctx.localSlots f = .ok locals → ctx.function f = .ok fr →
      ShowsBody ctx fits { globals, locals } fr.blocks) :
    Lays fits (functionLines ctx globals f) (ctx.functionRows f) := by
  refine lays_reading fun locals slotted => lays_reading fun fr function =>
    lays_reading fun ⟨result, _, variadic⟩ _ => lays_reading fun type written => ?_
  let slots : Slots := { globals, locals }
  have clean : (functionHead ctx slots f fr type variadic).Clean :=
    clean_functionHead _ _ _ (Context.printable_describeType written) _
  have starts {line : String}
      (rendered : (functionHead ctx slots f fr type variadic).render = .ok line) :=
    starts_of_functionHead rendered
  change Lays fits (functionHead ctx slots f fr type variadic ++
    if fr.blocks.isEmpty then [.text ")\n"]
    else .text ") \x7b\n" :: bodyLines ctx slots fr.blocks ++ [.text "\x7d\n"]) _
  rw [Context.functionRows, function, Checked.ok_bind]
  cases declared : fr.blocks.isEmpty with
  | true =>
    refine lays_lastPiece ")" clean (by decide) fun line rendered => plain _ _ rfl ?_
    obtain ⟨inside, head, rfl⟩ := starts rendered
    exact ⟨inside, head, by rw [declared]; rfl⟩
  | false =>
    have header : Lays fits (functionHead ctx slots f fr type variadic ++
        [.text (") \x7b" ++ "\n")]) (.ok [.header f]) := by
      refine lays_lastPiece _ clean (by decide) fun line rendered => plain _ _ rfl ?_
      obtain ⟨inside, head, rfl⟩ := starts rendered
      exact ⟨inside, head, by rw [declared]; rfl⟩
    have closing : Lays fits ([] ++ [.text ("\x7d" ++ "\n")]) (.ok [.closing]) :=
      lays_lastPiece _ clean_nil (by decide) fun line done => plain _ _ rfl (by
        obtain rfl := Except.ok.inj done
        rfl)
    have body := lays_bodyLines plain (shows locals fr slotted function)
    have lines := (header.append body).append closing
    simpa using lines

theorem lays_functionsLines (globals : List ValueRef) (fs : List FunctionRef) :
    Lays ctx.FitsRow (fs.flatMap fun f => .text "\n" :: functionLines ctx globals f)
      (ctx.functionsRows fs) := by
  have plain : Plain ctx ctx.FitsRow := fun _ _ _ fits => fits
  induction fs with
  | nil => exact lays_nil
  | cons f rest ih =>
    have function : Lays ctx.FitsRow (functionLines ctx globals f) (ctx.functionRows f) :=
      lays_functionLines plain fun _ _ _ _ _ _ _ _ _ _ inside done => ⟨_, inside, done, rfl⟩
    have lines := ((lays_blank plain).append function).append ih
    simpa [Context.functionsRows, Context.functionRows] using lines

theorem lays_globalLines (slots : Slots) (gs : List GlobalRef) :
    Lays ctx.FitsRow (gs.flatMap fun g => globalLine ctx slots g ++ [.text "\n"])
      (.ok (gs.map .global)) := by
  induction gs with
  | nil => exact lays_nil
  | cons g rest ih =>
    have line : Lays ctx.FitsRow (globalLine ctx slots g ++ [.text "\n"]) (.ok [.global g]) :=
      lays_line (clean_globalLine g) fun _ rendered => ⟨slots, rendered⟩
    exact line.append ih

end Listing

/-- What a module's text consists of: the comment with the name as it was given, and the lines that
its records say. -/
theorem Context.moduleText_lines {ctx : Context} {m : ModuleRef} {mr : ModuleRecord} {text : String}
    (found : ctx.module m = .ok mr) (done : ctx.moduleText m = .ok text) :
    ∃ rows lines, ctx.moduleRows m = .ok rows ∧ ctx.FitRows rows lines ∧
      text = "; ModuleID = '" ++ mr.name ++ "'\n" ++ unlines lines := by
  obtain ⟨globals, -, rendered⟩ := Listing.render_reading_eq_ok.mp done
  obtain ⟨mr', found', rendered⟩ := Listing.render_reading_eq_ok.mp rendered
  obtain rfl := Checked.unique found found'
  rw [List.cons_append, List.cons_append] at rendered
  obtain ⟨rest, back, rfl⟩ := Listing.render_text_eq_ok.mp rendered
  have separator : Listing.Lays ctx.FitsRow (if mr.globals.isEmpty then [] else [.text "\n"])
      (.ok (if mr.globals.isEmpty then [] else [.blank])) := by
    split
    · exact Listing.lays_nil
    · exact Listing.lays_blank fun _ _ _ fits => fits
  have lays := (separator.append (Listing.lays_globalLines { globals } mr.globals)).append
    (Listing.lays_functionsLines globals mr.functions)
  obtain ⟨rows, lines, has, rfl, each, printable⟩ := lays rest back
  refine ⟨rows, lines, ?_, ⟨each, printable⟩, rfl⟩
  rw [moduleRows, found]
  exact has

end ModuleIR
