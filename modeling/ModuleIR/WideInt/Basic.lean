set_option autoImplicit false

/-!
# Integers of a fixed bit width

A `WideInt` is a bit width and the value as little-endian 64-bit words. Bits above the width are
zero. Arithmetic wraps modulo two to the width; a sign is a way of reading the value and no part of
it. `toNat` is the unsigned reading of the words and `toInt` the two's-complement reading.
-/
namespace ModuleIR

structure WideInt where
  bits : Nat
  words : Array UInt64
  deriving DecidableEq, Repr, Inhabited

namespace WideInt

def maxBits : Nat := 1 <<< 24 - 1

def validWidth (bits : Nat) : Bool := 1 ≤ bits && bits ≤ maxBits

def wordCount (bits : Nat) : Nat := (bits + 63) / 64

def zero (bits : Nat) : WideInt := ⟨bits, Array.replicate (wordCount bits) 0⟩

def wordsToNat : List UInt64 → Nat
  | [] => 0
  | word :: rest => word.toNat + (1 <<< 64) * wordsToNat rest

def toNat (n : WideInt) : Nat := wordsToNat n.words.toList

def toInt (n : WideInt) : Int :=
  if n.toNat < 1 <<< (n.bits - 1) then n.toNat else (n.toNat : Int) - (1 <<< n.bits : Nat)

def unusedMask (bits : Nat) : UInt64 :=
  if bits % 64 = 0 then 0 else UInt64.ofNat (1 <<< 64 - 1 <<< (bits % 64))

def hasUnusedBits (n : WideInt) : Bool :=
  match n.words.back? with
  | some last => last &&& unusedMask n.bits != 0
  | none => false

def clearUnusedBits (n : WideInt) : WideInt :=
  { n with words := n.words.modify (n.words.size - 1) (· &&& ~~~(unusedMask n.bits)) }

def fillUnusedBits (n : WideInt) : WideInt :=
  { n with words := n.words.modify (n.words.size - 1) (· ||| unusedMask n.bits) }

def isZero (n : WideInt) : Bool := n.words.all (· == 0)

def isNegative (n : WideInt) : Bool :=
  let top := n.bits - 1
  (n.words.getD (top / 64) 0 >>> UInt64.ofNat (top % 64)) &&& 1 == 1

def isLeast (n : WideInt) : Bool :=
  let top := n.bits - 1
  n.isNegative &&
    (n.words.modify (top / 64) (· &&& ~~~((1 : UInt64) <<< UInt64.ofNat (top % 64)))).all (· == 0)

/-- Multiplies one word and adds the carry: the low word is kept, the high word is the new carry. -/
def mulAddStep (factor : UInt64) (done : Array UInt64 × Nat) (word : UInt64) :
    Array UInt64 × Nat :=
  let wide := word.toNat * factor.toNat + done.2
  (done.1.push (UInt64.ofNat wide), wide / (1 <<< 64))

/-- The product with `factor` plus `addend`, and whether bits were lost. -/
def mulAdd (n : WideInt) (factor addend : UInt64) : WideInt × Bool :=
  let (words, carry) := n.words.foldl (mulAddStep factor) (#[], addend.toNat)
  let wide : WideInt := ⟨n.bits, words⟩
  (wide.clearUnusedBits, carry != 0 || wide.hasUnusedBits)

def divRemStep (divisor : UInt64) (word : UInt64) (done : Array UInt64 × Nat) :
    Array UInt64 × Nat :=
  let current := done.2 * (1 <<< 64) + word.toNat
  (done.1.push (UInt64.ofNat (current / divisor.toNat)), current % divisor.toNat)

/-- Quotient and remainder of the unsigned value, from the highest word down. -/
def divRem (n : WideInt) (divisor : UInt64) : WideInt × UInt64 :=
  let (words, rest) := n.words.foldr (divRemStep divisor) (#[], 0)
  (⟨n.bits, words.reverse⟩, UInt64.ofNat rest)

/-- Complements one word and adds the carry, which stays set while the sum wraps to zero. -/
def negateStep (done : Array UInt64 × Bool) (word : UInt64) : Array UInt64 × Bool :=
  let sum := ~~~word + (if done.2 then 1 else 0)
  (done.1.push sum, done.2 && sum == 0)

def negate (n : WideInt) : WideInt :=
  let (words, _) := n.words.foldl negateStep (#[], true)
  clearUnusedBits ⟨n.bits, words⟩

def ofInt64 (bits : Nat) (value : Int64) : WideInt :=
  let fill : UInt64 := if value < 0 then ~~~0 else 0
  clearUnusedBits
    ⟨bits, (Array.replicate (wordCount bits) fill).modify 0 (fun _ => value.toUInt64)⟩

def ofUInt64 (bits : Nat) (value : UInt64) : WideInt :=
  clearUnusedBits ⟨bits, (zero bits).words.modify 0 (fun _ => value)⟩

def upperWordsAre (n : WideInt) (fill : UInt64) : Bool := (n.words.toList.drop 1).all (· == fill)

/-- The unsigned value, if it fits a word. -/
def toUInt64? (n : WideInt) : Option UInt64 :=
  if n.upperWordsAre 0 then some (n.words.getD 0 0) else none

def toInt64? (n : WideInt) : Option Int64 :=
  let negative := n.isNegative
  if n.bits ≤ 64 then
    let shift := 64 - n.bits
    some ((n.words.getD 0 0 <<< UInt64.ofNat shift).toInt64 >>> Int64.ofNat shift)
  else
    let fill : UInt64 := if negative then ~~~0 else 0
    let upper := if negative then n.fillUnusedBits else n
    let low := (upper.words.getD 0 0).toInt64
    if upper.upperWordsAre fill && (decide (low < 0) == negative) then some low else none

end WideInt
end ModuleIR
