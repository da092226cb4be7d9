/-!
# Hexadecimal text

`fixed` writes a number in a given count of digits, `padded` in at least that many. Upper case
digits are those of code maps, lower case digits those of messages.
-/

namespace FontSubset.Hex

/-- The upper case digit of a number below sixteen. -/
def digit (n : Nat) : Char :=
  (Nat.digitChar n).toUpper

/-- The last `width` digits of `n`. -/
def fixed : Nat → Nat → List Char
  | 0, _ => []
  | width + 1, n => fixed width (n / 16) ++ [digit (n % 16)]

/-- All digits of `n`, with zeros in front up to `width` digits. -/
def padded (width n : Nat) : List Char :=
  ((Nat.toDigits 16 n).map Char.toUpper).leftpad width '0'

/-- All digits of `n` in lower case, with zeros in front up to `width` digits. -/
def paddedLower (width n : Nat) : List Char :=
  (Nat.toDigits 16 n).leftpad width '0'

/-- The value of a digit of either case. -/
def value? (b : UInt8) : Option UInt8 :=
  if 0x30 ≤ b ∧ b ≤ 0x39 then some (b - 0x30)
  else if 0x61 ≤ b ∧ b ≤ 0x66 then some (b - 0x61 + 10)
  else if 0x41 ≤ b ∧ b ≤ 0x46 then some (b - 0x41 + 10)
  else none

@[simp] theorem length_fixed (width n : Nat) : (fixed width n).length = width := by
  induction width generalizing n with
  | zero => rfl
  | succ width ih => simp [fixed, ih]

example : fixed 4 0x41 = ['0', '0', '4', '1'] := by decide

end FontSubset.Hex
