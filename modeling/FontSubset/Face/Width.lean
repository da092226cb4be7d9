import FontSubset.Bytes

/-!
# Glyph widths

All measures are given in thousandths of the em, the unit of glyph space in a PDF file.
-/

namespace FontSubset

/-- A value in font units as thousandths of the em, truncated toward zero. -/
def toGlyphSpace (value : Int32) (unitsPerEm : UInt16) : Int32 :=
  if unitsPerEm = 0 then value else value * 1000 / Int32.ofNat unitsPerEm.toNat

/-- The advance of each glyph. -/
structure GlyphWidths where
  widths : Array UInt32
  deriving DecidableEq

namespace GlyphWidths

def size (w : GlyphWidths) : Nat :=
  w.widths.size

/-- The width of a glyph; glyphs past the last one have its width. -/
def width (w : GlyphWidths) (glyph : GlyphId) : UInt32 :=
  (w.widths[min glyph.toNat (w.size - 1)]?).getD 0

end GlyphWidths

/-- A glyph with its width. -/
structure GlyphMetric where
  glyph : GlyphId
  width : UInt32
  deriving DecidableEq

/-- A glyph with the characters that it stands for. -/
structure GlyphInfo where
  code : GlyphId
  width : UInt32
  characters : String
  deriving DecidableEq

def GlyphWidths.metric (w : GlyphWidths) (glyph : GlyphId) : GlyphMetric :=
  ⟨glyph, w.width glyph⟩

end FontSubset
