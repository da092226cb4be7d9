import FontSubset.Bytes
import FontSubset.Error
import FontSubset.Number.Binary64

/-!
# Faces

What the tables of a font say about its glyphs, its measures and its names. Reading these tables is
left to a `FaceParser`.
-/

namespace FontSubset

/-- The rectangle around all glyphs, in font units. -/
structure Bounds where
  xMin : Int16
  yMin : Int16
  xMax : Int16
  yMax : Int16
  deriving DecidableEq

/-- An entry of the name table. -/
structure FaceName where
  kind : UInt16
  /-- Whether the name is in one of the Macintosh encodings. -/
  isMacintosh : Bool
  bytes : List UInt8
  /-- The text, if the bytes are in Unicode. -/
  text : Option (List Char)

/-- What is known of a face, in font units. -/
structure Face where
  unitsPerEm : UInt16
  glyphCount : UInt16
  /-- The horizontal advance of a glyph, if it has one. -/
  advance : GlyphId → Option UInt16
  bounds : Bounds
  ascender : Int16
  descender : Int16
  capHeight : Option Int16
  /-- The slant in degrees. -/
  italicAngle : Binary64
  isMonospaced : Bool
  isBold : Bool
  names : List FaceName

/-- A reader of faces. -/
class FaceParser where
  /-- The member `index` of a file; 0 is the only one of a file that is no collection. A face that
  cannot be read is described by a text. -/
  parse (data : Bytes) (index : UInt32) : Except String Face

end FontSubset
