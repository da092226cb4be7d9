/-!
# Binary floating point

A double is kept as its 64 bits. `significand` and `exponent` give the number that finite bits
stand for, and `nearest` rounds a quotient of naturals to the nearest double, a tie to the even
one. All arithmetic is on naturals, so that nothing is rounded twice.
-/

namespace FontSubset

/-- `num / den` rounded to the nearest natural; of two equally near ones the even one is taken. -/
def roundedQuotient (num den : Nat) : Nat :=
  let floor := num / den
  let rest := num % den
  if den < 2 * rest ∨ (den = 2 * rest ∧ floor % 2 = 1) then floor + 1 else floor

/-- The nearest natural with at most `count` significant bits; ties go to the even one. -/
def roundedToBits (count n : Nat) : Nat :=
  let dropped := n.log2 + 1 - count
  roundedQuotient n (1 <<< dropped) <<< dropped

/-- A double-precision number, by its bits. -/
structure Binary64 where
  bits : UInt64
  deriving DecidableEq

namespace Binary64

def zero : Binary64 := ⟨0⟩

/-- The bit of the sign. -/
def signBit : Nat := 0x8000000000000000

/-- The leading bit of a significand, which is not stored. -/
def leadingBit : Nat := 0x10000000000000

def isNegative (x : Binary64) : Bool :=
  signBit ≤ x.bits.toNat

/-- The bits without the sign. -/
def magnitude (x : Binary64) : Nat :=
  x.bits.toNat % signBit

/-- The bits of infinity; those of a finite magnitude are below, those of no number above. -/
def infinityBits : Nat := 0x7FF * leadingBit

def isZero (x : Binary64) : Bool :=
  x.magnitude = 0

def isFinite (x : Binary64) : Bool :=
  x.magnitude < infinityBits

def isInfinite (x : Binary64) : Bool :=
  x.magnitude = infinityBits

/-- The magnitude of a finite number is `significand * 2 ^ exponent`. -/
def significand (x : Binary64) : Nat :=
  if x.magnitude < leadingBit then x.magnitude else x.magnitude % leadingBit + leadingBit

def exponent (x : Binary64) : Int :=
  if x.magnitude < leadingBit then -1074 else (x.magnitude / leadingBit : Nat) - 1075

/-- The magnitude of a finite number as a fraction. -/
def fraction (x : Binary64) : Nat × Nat :=
  (x.significand <<< x.exponent.toNat, 1 <<< (-x.exponent).toNat)

/-- Whether a finite number has no fractional part. -/
def isIntegral (x : Binary64) : Bool :=
  x.fraction.1 % x.fraction.2 = 0

/-- The bits of the double nearest to `num / den`, infinity where it is too large. -/
def nearestBits (num den : Nat) : Nat :=
  if num = 0 then 0 else
  let guess : Int := (num.log2 : Int) - den.log2
  let lead := if den <<< guess.toNat ≤ num <<< (-guess).toNat then guess else guess - 1
  let scale := max (lead - 52) (-1074)
  let digits := roundedQuotient (num <<< (-scale).toNat) (den <<< scale.toNat)
  min ((scale + 1074).toNat * leadingBit + digits) infinityBits

/-- The double nearest to `num / den` or, if `negative`, to its opposite. -/
def nearest (negative : Bool) (num den : Nat) : Binary64 :=
  ⟨UInt64.ofNat ((if negative then signBit else 0) + nearestBits num den)⟩

example : nearest false 3 2 = ⟨0x3ff8000000000000⟩ := by decide +kernel
example : nearest true 25 2 = ⟨0xc029000000000000⟩ := by decide +kernel
/-- Just above the middle between two doubles. -/
example : nearest false (0x20000000000001 * 1000 + 1) 1000 = ⟨0x4340000000000001⟩ := by
  decide +kernel

end Binary64

end FontSubset
