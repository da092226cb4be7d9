import FontSubset.Digest
import FontSubset.Error

/-!
# Names of subsets

A subset goes by the name of its font behind six capital letters and a plus sign. The letters are
taken from a digest of the glyphs, so that equal subsets have equal names.
-/

namespace FontSubset.SubsetName

/-- The digits of a number in base 26, the last one first, as capital letters. -/
def letters : Nat → Nat → List Char
  | 0, _ => []
  | count + 1, n => Char.ofNat ('A'.toNat + n % 26) :: letters count (n / 26)

/-- The bytes of a glyph number, high byte first. -/
def glyphBytes (glyph : GlyphId) : List UInt8 :=
  [(glyph >>> 8).toUInt8, glyph.toUInt8]

/-- What is put before the name of the font. -/
def tagOf (glyphs : List GlyphId) : String :=
  String.ofList (letters 6 (Digest.fnv1a (glyphs.flatMap glyphBytes)).toNat ++ ['+'])

end FontSubset.SubsetName
