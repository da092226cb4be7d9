/-!
# UTF-16

Text as 16-bit units. `encode` writes a character beyond the basic plane as two surrogates;
`decode` gives none where a surrogate has no partner, and `decodeLossy` a replacement character in
its place.
-/

namespace FontSubset.Utf16

def isHigh (unit : UInt16) : Bool :=
  0xD800 ≤ unit ∧ unit < 0xDC00

def isLow (unit : UInt16) : Bool :=
  0xDC00 ≤ unit ∧ unit < 0xE000

def replacement : Char := '\ufffd'

/-- The units of a character. -/
def units (c : Char) : List UInt16 :=
  let n := c.toNat
  if n < 0x10000 then [UInt16.ofNat n]
  else [UInt16.ofNat (0xD800 + (n - 0x10000) / 0x400), UInt16.ofNat (0xDC00 + (n - 0x10000) % 0x400)]

def encode (text : List Char) : List UInt16 :=
  text.flatMap units

/-- The character of a pair of surrogates. -/
def pair (high low : UInt16) : Char :=
  Char.ofNat (0x10000 + (high.toNat - 0xD800) * 0x400 + (low.toNat - 0xDC00))

/-- The characters of some units; a surrogate without a partner has none. -/
def scan : List UInt16 → List (Option Char)
  | [] => []
  | [unit] => [if isHigh unit ∨ isLow unit then none else some (Char.ofNat unit.toNat)]
  | unit :: next :: rest =>
    if isHigh unit then
      if isLow next then some (pair unit next) :: scan rest else none :: scan (next :: rest)
    else if isLow unit then none :: scan (next :: rest)
    else some (Char.ofNat unit.toNat) :: scan (next :: rest)

def decodeLossy (text : List UInt16) : List Char :=
  (scan text).map (·.getD replacement)

def decode? (text : List UInt16) : Option (List Char) :=
  (scan text).mapM id

/-- The units that the bytes spell, most significant byte first; an odd byte at the end counts as
the upper half of a unit. -/
def ofBytes : List UInt8 → List UInt16
  | [] => []
  | [high] => [high.toUInt16 <<< 8]
  | high :: low :: rest => (high.toUInt16 <<< 8 ||| low.toUInt16) :: ofBytes rest

def toBytes (text : List UInt16) : List UInt8 :=
  text.flatMap fun (unit : UInt16) => [(unit >>> 8).toUInt8, unit.toUInt8]

example : decodeLossy [0xD83D, 0xDE00, 0xDC00, 0x41] = ['😀', '\ufffd', 'A'] := by decide

end FontSubset.Utf16
