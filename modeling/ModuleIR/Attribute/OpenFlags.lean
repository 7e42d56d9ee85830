import ModuleIR.Text.Blank

set_option autoImplicit false

/-!
# Flags for opening an output file

A set of flags is a 32-bit word. Four bits have names; the written form lists the names of the set
bits and then whatever bits are left as one hexadecimal number.
-/
namespace ModuleIR

structure OpenFlags where
  bits : UInt32
  deriving DecidableEq, Repr, Inhabited

namespace OpenFlags

def none : OpenFlags := ⟨0⟩

def excl : OpenFlags := ⟨1⟩

def append : OpenFlags := ⟨2⟩

/-- Text mode; it changes nothing where lines end in one character. -/
def text : OpenFlags := ⟨4⟩

def rw : OpenFlags := ⟨8⟩

def named : List (String × OpenFlags) :=
  [("EXCL", excl), ("APPEND", append), ("TEXT", text), ("RW", rw)]

def union (a b : OpenFlags) : OpenFlags := ⟨a.bits ||| b.bits⟩

def contains (a b : OpenFlags) : Bool := a.bits &&& b.bits == b.bits

def isEmpty (a : OpenFlags) : Bool := a.bits == 0

def ofBits? (bits : Nat) : Option OpenFlags :=
  if bits < 16 then some ⟨UInt32.ofNat bits⟩ else Option.none

def ofName? (name : String) : Option OpenFlags := named.lookup name

def unnamedBits (a : OpenFlags) : UInt32 := a.bits &&& ~~~(15 : UInt32)

/-- Written form: names in bit order, then unnamed bits, joined by bars; empty for no flags. -/
def render (a : OpenFlags) : String :=
  let names := (named.filter fun entry => a.contains entry.2).map (·.1)
  let rest := if a.unnamedBits == 0 then []
    else ["0x" ++ String.ofList (Nat.toDigits 16 a.unnamedBits.toNat)]
  " | ".intercalate (names ++ rest)

def describe (a : OpenFlags) : String :=
  "OpenFlags(" ++ (if a.isEmpty then "0x0" else a.render) ++ ")"

def hexDigit? (c : Char) : Option Nat :=
  if '0' ≤ c && c ≤ '9' then some (c.toNat - '0'.toNat)
  else if 'a' ≤ c && c ≤ 'f' then some (c.toNat - 'a'.toNat + 10)
  else if 'A' ≤ c && c ≤ 'F' then some (c.toNat - 'A'.toNat + 10)
  else Option.none

def hexWord? (cs : List Char) : Option UInt32 :=
  let digits := match cs with
    | '+' :: rest => rest
    | _ => cs
  if digits.isEmpty then Option.none
  else do
    let values ← digits.mapM hexDigit?
    let word := values.foldl (fun n d => n * 16 + d) 0
    if word < 1 <<< 32 then some (UInt32.ofNat word) else Option.none

def readPart? (cs : List Char) : Option OpenFlags :=
  match cs with
  | '0' :: 'x' :: digits => (hexWord? digits).map OpenFlags.mk
  | _ => ofName? (String.ofList cs)

/-- Reads the written form. Blanks around a part do not count, and a blank text is no flags. -/
def read? (written : String) : Option OpenFlags :=
  if (Text.trim written.toList).isEmpty then some none
  else (Text.splitAt '|' written.toList).foldlM
    (fun flags part => (readPart? (Text.trim part)).map flags.union) none

end OpenFlags
end ModuleIR
