import ModuleIR.Arena.Violation
import ModuleIR.WideInt.Numeral

set_option autoImplicit false

/-!
# Checked making and reading of integers

The conversions of `WideInt` for callers that have to give a supported width and radix.
-/
namespace ModuleIR.WideInt

def checkWidth (bits : Nat) : Checked Unit :=
  if validWidth bits then .ok () else .error (.literalWidth bits)

def fromInt64 (bits : Nat) (value : Int64) : Checked WideInt := do
  checkWidth bits
  return ofInt64 bits value

def fromUInt64 (bits : Nat) (value : UInt64) : Checked WideInt := do
  checkWidth bits
  return ofUInt64 bits value

def numeralIn (radix : Nat) (signed : Bool) (n : WideInt) : Checked String :=
  if validNumeralRadix radix then .ok (n.numeral radix signed) else .error (.numeralRadix radix)

end ModuleIR.WideInt
