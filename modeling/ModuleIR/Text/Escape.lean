set_option autoImplicit false

/-!
# Escaped bytes and identifiers

A byte is written as itself when it is a printable ASCII character other than the backslash and
the double quote; any other byte is a backslash and two hexadecimal digits. A name is written bare
when it has the shape of an identifier, and between double quotes, escaped, otherwise.

`unescape` reads escaped bytes back, and `readIdent` reads a written name back.
-/
namespace ModuleIR.Text

def hexDigitUpper (n : Nat) : Char := if n < 10 then Char.ofNat (48 + n) else Char.ofNat (55 + n)

def isPlainByte (b : UInt8) : Bool := 0x20 ≤ b && b < 0x7f && b != 0x5c && b != 0x22

def escapeByte (b : UInt8) : List Char :=
  if isPlainByte b then [Char.ofNat b.toNat]
  else ['\\', hexDigitUpper (b.toNat / 16), hexDigitUpper (b.toNat % 16)]

def escapeBytes (bytes : List UInt8) : List Char := bytes.flatMap escapeByte

def hexValueUpper? (c : Char) : Option Nat :=
  if '0' ≤ c && c ≤ '9' then some (c.toNat - 48)
  else if 'A' ≤ c && c ≤ 'F' then some (c.toNat - 55)
  else none

/-- Reads escaped bytes; refuses a backslash without two digits and any unescaped special byte. -/
def unescape : List Char → Option (List UInt8)
  | [] => some []
  | '\\' :: h :: l :: rest => do
    let high ← hexValueUpper? h
    let low ← hexValueUpper? l
    let bytes ← unescape rest
    return UInt8.ofNat (high * 16 + low) :: bytes
  | c :: rest =>
    if c.toNat < 256 && isPlainByte (UInt8.ofNat c.toNat) then
      (unescape rest).map (UInt8.ofNat c.toNat :: ·)
    else none

def isDigitByte (b : UInt8) : Bool := 48 ≤ b && b ≤ 57

def isIdentByte (b : UInt8) : Bool :=
  isDigitByte b || (65 ≤ b && b ≤ 90) || (97 ≤ b && b ≤ 122) ||
    b == 0x2d || b == 0x24 || b == 0x2e || b == 0x5f

/-- A bare identifier is not empty, does not start with a digit and has identifier bytes only. -/
def isBareIdent (bytes : List UInt8) : Bool :=
  match bytes with
  | [] => false
  | first :: _ => !isDigitByte first && bytes.all isIdentByte

def nameBytes (name : String) : List UInt8 := name.toUTF8.toList

def ident (name : String) : String :=
  if isBareIdent (nameBytes name) then name
  else String.ofList ('"' :: escapeBytes (nameBytes name) ++ ['"'])

def readIdent (written : String) : Option (List UInt8) :=
  match written.toList with
  | '"' :: rest =>
    match rest.getLast? with
    | some '"' => unescape rest.dropLast
    | _ => none
  | _ => if isBareIdent (nameBytes written) then some (nameBytes written) else none

def quotedBytes (bytes : List UInt8) : String := String.ofList (escapeBytes bytes)

end ModuleIR.Text
