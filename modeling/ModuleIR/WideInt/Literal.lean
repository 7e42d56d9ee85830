import ModuleIR.WideInt.Basic

set_option autoImplicit false

/-!
# Integer literals

Reads the text of an integer in one of five radices into a given width. A literal that does not fit
is cut to the width and marked as truncated; malformed text is an error.
-/
namespace ModuleIR

inductive LiteralError where
  | malformed (text reason : String)
  | radix (radix : Nat)
  | width (bits : Nat)
  deriving DecidableEq, Repr, Inhabited

namespace LiteralError

def widthMessage (bits : Nat) : String :=
  s!"Integer bit width must be between 1 and {WideInt.maxBits}, got {bits}"

def message : LiteralError → String
  | malformed text reason => s!"Invalid integer literal '{text}': {reason}"
  | radix r => s!"Unsupported radix {r}: expected 2, 8, 10, 16 or 36"
  | width bits => widthMessage bits

end LiteralError

/-- The integer that a literal stands for, and whether bits were lost in reading it. -/
structure Literal where
  value : WideInt
  truncated : Bool
  deriving DecidableEq, Repr, Inhabited

namespace Literal

def supportedRadices : List Nat := [2, 8, 10, 16, 36]

def digitValue? (radix : Nat) (c : Char) : Option Nat :=
  let value? :=
    if '0' ≤ c && c ≤ '9' then some (c.toNat - 48)
    else if 'a' ≤ c && c ≤ 'z' then some (c.toNat - 87)
    else if 'A' ≤ c && c ≤ 'Z' then some (c.toNat - 55)
    else none
  value?.filter (· < radix)

/-- An optional leading sign, and the rest. The flag is set for a minus. -/
def splitSign : List Char → Bool × List Char
  | '-' :: rest => (true, rest)
  | '+' :: rest => (false, rest)
  | cs => (false, cs)

def accumulate (radix : Nat) : Literal → List Char → Except Char Literal
  | read, [] => .ok read
  | read, c :: rest =>
    match digitValue? radix c with
    | none => .error c
    | some digit =>
      let (value, lost) := read.value.mulAdd (UInt64.ofNat radix) (UInt64.ofNat digit)
      accumulate radix ⟨value, read.truncated || lost⟩ rest

/-- Negates what was read. A magnitude above half the range does not fit. -/
def applySign (negative : Bool) (read : Literal) : Literal :=
  if negative then
    let beyond := !read.truncated && read.value.isNegative && !read.value.isLeast
    ⟨read.value.negate, read.truncated || beyond⟩
  else read

/-- Reads `text` in `radix` as an integer of `bits` bits. -/
def read (bits : Nat) (text : String) (radix : Nat) : Except LiteralError Literal :=
  if !WideInt.validWidth bits then .error (.width bits)
  else if !supportedRadices.contains radix then .error (.radix radix)
  else
    let (negative, digits) := splitSign text.toList
    if digits.isEmpty then .error (.malformed text "no digits")
    else match accumulate radix ⟨WideInt.zero bits, false⟩ digits with
      | .error c => .error (.malformed text s!"invalid digit '{c}' for radix {radix}")
      | .ok literal => .ok (applySign negative literal)

end Literal
end ModuleIR
