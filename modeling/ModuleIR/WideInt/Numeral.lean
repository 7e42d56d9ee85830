import ModuleIR.WideInt.Basic

set_option autoImplicit false

/-!
# Numerals of wide integers

The digits of a `WideInt` in any radix from 2 to 36, unsigned or with a minus sign. The signed
decimal numeral is the form of integers in textual modules.
-/
namespace ModuleIR.WideInt

def validNumeralRadix (radix : Nat) : Bool := 2 ≤ radix && radix ≤ 36

def digitChar (digit : Nat) : Char :=
  if digit < 10 then Char.ofNat (48 + digit) else Char.ofNat (87 + digit)

/-- Puts the digits of a value in front of `done`, the lowest digit first. Each step divides by at
least two, so as many steps as bits are enough. -/
def pushDigits (radix : UInt64) : Nat → WideInt → List Char → List Char
  | 0, _, done => done
  | steps + 1, n, done =>
    if n.isZero then done
    else
      let (quotient, digit) := n.divRem radix
      pushDigits radix steps quotient (digitChar digit.toNat :: done)

def digits (radix : Nat) (n : WideInt) : List Char :=
  if n.isZero then ['0'] else pushDigits (UInt64.ofNat radix) n.bits n []

/-- The numeral in `radix`. When `signed`, a value with its sign bit set is written as a minus and
its magnitude. -/
def numeral (radix : Nat) (signed : Bool) (n : WideInt) : String :=
  if signed && n.isNegative then String.ofList ('-' :: n.negate.digits radix)
  else String.ofList (n.digits radix)

def decimal (n : WideInt) : String := n.numeral 10 true

end ModuleIR.WideInt
