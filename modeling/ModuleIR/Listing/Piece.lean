import ModuleIR.Arena.Violation

set_option autoImplicit false

/-!
# Listings

A listing is text in the order in which it is produced. A reference to an entity that has neither a
name nor a number is a piece of its own, so that a listing tells whether its references are
resolved. Where an entity cannot be read the listing holds the violation in place of text, and
nothing after that place is ever reached.
-/
namespace ModuleIR

inductive Piece where
  | text (text : String)
  /-- A reference to an entity without name and number. -/
  | unresolved
  | fault (violation : Violation)
  deriving DecidableEq, Repr, Inhabited

def Piece.content : Piece → Checked String
  | .text content => .ok content
  | .unresolved => .ok "<badref>"
  | .fault violation => .error violation

abbrev Listing : Type := List Piece

namespace Listing

def renderOnto (done : String) : Listing → Checked String
  | [] => .ok done
  | piece :: rest => do renderOnto (done ++ (← piece.content)) rest

/-- The text of a listing, if nothing in it is a violation. -/
def render (l : Listing) : Checked String := renderOnto "" l

def reading {α : Type} (read : Checked α) (next : α → Listing) : Listing :=
  match read with
  | .ok a => next a
  | .error violation => [.fault violation]

def separated (separator : String) : List Listing → Listing
  | [] => []
  | [last] => last
  | first :: rest => first ++ .text separator :: separated separator rest

theorem renderOnto_eq (done : String) (l : Listing) :
    renderOnto done l = (render l).map (done ++ ·) := by
  unfold render
  induction l generalizing done with
  | nil => simp [renderOnto, Except.map]
  | cons piece rest ih =>
    cases h : piece.content with
    | error v => simp [renderOnto, h, Except.map]
    | ok t =>
      simp only [renderOnto, h, Checked.ok_bind]
      rw [ih (done ++ t), ih ("" ++ t)]
      cases renderOnto "" rest <;> simp [Except.map, String.append_assoc]

@[simp] theorem render_nil : render [] = .ok "" := rfl

theorem render_cons (piece : Piece) (rest : Listing) :
    render (piece :: rest) = (do return (← piece.content) ++ (← render rest)) := by
  cases h : piece.content with
  | error v => simp [render, renderOnto, h]
  | ok t =>
    have step : render (piece :: rest) = renderOnto t rest := by simp [render, renderOnto, h]
    rw [step, renderOnto_eq]
    cases render rest <;> simp [Except.map]

theorem render_append (l r : Listing) :
    render (l ++ r) = (do return (← render l) ++ (← render r)) := by
  induction l with
  | nil => cases h : render r <;> simp [h]
  | cons piece rest ih =>
    rw [List.cons_append, render_cons, render_cons, ih]
    cases piece.content <;> cases render rest <;> cases render r <;> simp [String.append_assoc]

end Listing
end ModuleIR
