import FontSubset.Number.Binary64

/-!
# Decimal places

`Binary64.fixed` writes a number with a given count of decimal places, rounding its exact value to
the nearest and a tie to the even digit. `Binary64.truncated` is its integer part within 64 bits.
-/

namespace FontSubset.Binary64

/-- The magnitude of a finite number with `places` digits after the point. -/
def fixedMagnitude (places : Nat) (x : Binary64) : String :=
  let (num, den) := x.fraction
  let scaled := roundedQuotient (num * Nat.pow 10 places) den
  let digits := (Nat.toDigits 10 scaled).leftpad (places + 1) '0'
  let whole := digits.take (digits.length - places)
  String.ofList (whole ++ '.' :: digits.drop (digits.length - places))

/-- A number with `places` digits after the point. -/
def fixed (places : Nat) (x : Binary64) : String :=
  let sign := if x.isNegative then "-" else ""
  if x.isFinite then sign ++ x.fixedMagnitude places
  else if x.isInfinite then sign ++ "inf"
  else "NaN"

/-- The integer part of a finite number, or the end of the range of 64-bit integers nearest to it. -/
def truncated (x : Binary64) : Int :=
  let whole : Int := (x.fraction.1 / x.fraction.2 : Nat)
  let signed := if x.isNegative then -whole else whole
  max (-0x8000000000000000) (min signed 0x7FFFFFFFFFFFFFFF)

/-- Three hundred and twelve and a half ten-thousandths go down to the even neighbour. -/
example : (nearest false 1 32).fixed 4 = "0.0312" := by decide +kernel

end FontSubset.Binary64
