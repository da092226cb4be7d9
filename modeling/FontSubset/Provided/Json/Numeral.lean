import FontSubset.Provided.Json.Reader
import FontSubset.Number.Binary64

/-!
# JSON numbers

A number is read into its digits. Where its value matters, it must be within the range of doubles;
a number that is skipped may be of any size.
-/

namespace FontSubset.Json

def isDigit (b : UInt8) : Bool :=
  0x30 ≤ b ∧ b ≤ 0x39

def digitValue (b : UInt8) : Nat :=
  b.toNat - 0x30

/-- The digits of a number. -/
structure Numeral where
  negative : Bool
  whole : List UInt8
  /-- The digits after the point, if there is one. -/
  fraction : Option (List UInt8)
  exponent : Option Int

namespace Numeral

/-- The first digits, put behind `n`, that make a number of 64 bits, and the number of digits that
are left. -/
def leading (n : Nat) : List UInt8 → Nat × Nat
  | [] => (n, 0)
  | digit :: rest =>
    let longer := 10 * n + digitValue digit
    if longer < UInt64.size then leading longer rest else (n, rest.length + 1)

/-- The product of a number and a power of ten is too large for a double. Both are rounded first,
and numbers past the largest power of ten are not looked at any closer. -/
def tooLarge (n : Nat) (power : Int) : Bool :=
  if 308 < power then n ≠ 0
  else if 0 ≤ power then
    let a := (Binary64.nearest false n 1).fraction
    let b := (Binary64.nearest false (Nat.pow 10 power.toNat) 1).fraction
    (Binary64.nearest false (a.1 * b.1) (a.2 * b.2)).isInfinite
  else false

/-- Whether a number is within the range of doubles, judged by its first digits. -/
def inRange (n : Numeral) : Bool :=
  let (whole, left) := leading 0 n.whole
  let places := n.fraction.getD []
  let (digits, unused) := leading whole places
  ¬ tooLarge digits (left - (places.length - unused : Nat) + n.exponent.getD 0)

/-- The value of a number without sign, point and exponent. -/
def natural? (n : Numeral) : Option Nat :=
  if n.negative ∨ n.fraction.isSome ∨ n.exponent.isSome then none
  else some (n.whole.foldl (fun value digit => 10 * value + digitValue digit) 0)

end Numeral

/-- Some digits, of which there must be one; `atEnd` is the fault if the text ends instead. -/
def someDigits (atEnd : JobFault) : Reader (List UInt8) := do
  match ← peekByte with
  | none => throw atEnd
  | some b => if isDigit b then takeWhile isDigit else throw .malformed

/-- The digits before the point. A zero stands alone. -/
def wholeDigits (atEnd : JobFault) : Reader (List UInt8) := do
  let digits ← someDigits atEnd
  if digits.head? = some 0x30 ∧ digits.length ≠ 1 then throw .malformed
  return digits

/-- What follows if the next byte is among some marks. -/
def optionally (marks : List Char) (r : Reader α) : Reader (Option α) := do
  match ← peekByte with
  | some b => if b ∈ marks.map Char.toUInt8 then some <$> (do advance; r) else return none
  | none => return none

def exponentDigits (atEnd : JobFault) : Reader Int := do
  let sign ← peekByte
  let negative := sign = some '-'.toUInt8
  if negative ∨ sign = some '+'.toUInt8 then advance
  let digits ← someDigits atEnd
  let value : Int := digits.foldl (fun n digit => 10 * n + digitValue digit) 0
  return if negative then -value else value

/-- A number behind its sign. -/
def numeral (atEnd : JobFault) (negative : Bool) : Reader Numeral := do
  let whole ← wholeDigits atEnd
  let fraction ← optionally ['.'] (someDigits atEnd)
  let exponent ← optionally ['e', 'E'] (exponentDigits atEnd)
  return ⟨negative, whole, fraction, exponent⟩

/-- A number that counts, which begins with `b`. -/
def readNumber (b : UInt8) : Reader Numeral := do
  let negative := b = '-'.toUInt8
  if negative then advance
  let n ← numeral .truncated negative
  if n.inRange then return n else throw .malformed

/-- A number that does not count, which begins with `b`. -/
def skipNumber (b : UInt8) : Reader Unit := do
  let negative := b = '-'.toUInt8
  if negative then advance
  let _ ← numeral .malformed negative

def startsNumber (b : UInt8) : Bool :=
  b = '-'.toUInt8 ∨ isDigit b

end FontSubset.Json
