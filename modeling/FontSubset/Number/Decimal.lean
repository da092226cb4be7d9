import FontSubset.Number.Binary64

/-!
# Decimal numbers

Readers of plain decimal numbers: ASCII digits, with the signs, the point and the bounds that each
of them admits.
-/

namespace FontSubset.Decimal

/-- The number spelled by some digits. -/
def ofDigits (digits : List Char) : Nat :=
  digits.foldl (fun n c => 10 * n + (c.toNat - '0'.toNat)) 0

/-- One digit or more, and nothing else. -/
def natural? (text : List Char) : Option Nat :=
  if text ≠ [] ∧ text.all Char.isDigit then some (ofDigits text) else none

/-- A number of 32 bits, which may have a plus sign. -/
def word? (text : List Char) : Option UInt32 :=
  let digits := match text with
    | '+' :: rest => rest
    | _ => text
  match natural? digits with
  | some n => if n < UInt32.size then some (UInt32.ofNat n) else none
  | none => none

/-- Whether a number has a minus sign, and what follows its sign. -/
def splitSign : List Char → Bool × List Char
  | '+' :: rest => (false, rest)
  | '-' :: rest => (true, rest)
  | text => (false, text)

/-- A signed number of 64 bits. -/
def integer? (text : List Char) : Option Int :=
  let (negative, digits) := splitSign text
  match natural? digits with
  | some n =>
    let value : Int := if negative then -n else n
    if -0x8000000000000000 ≤ value ∧ value < 0x8000000000000000 then some value else none
  | none => none

/-- A signed number with a point, before or behind which there may be no digits but not both. -/
def real? (text : List Char) : Option Binary64 :=
  let (negative, unsigned) := splitSign text
  let whole := unsigned.takeWhile Char.isDigit
  let fraction := match unsigned.dropWhile Char.isDigit with
    | [] => some []
    | '.' :: rest => if rest.all Char.isDigit then some rest else none
    | _ => none
  match fraction with
  | some fraction =>
    if whole = [] ∧ fraction = [] then none
    else some (.nearest negative (ofDigits (whole ++ fraction)) (Nat.pow 10 fraction.length))
  | none => none

example : real? ['-', '.', '5'] = some ⟨0xbfe0000000000000⟩ := by decide +kernel

end FontSubset.Decimal
