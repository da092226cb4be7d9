import FontSubset.Face.Basic
import FontSubset.Face.Width

/-!
# Font metrics

The numbers of a face that a font descriptor needs, in thousandths of the em.
-/

namespace FontSubset

/-- A rectangle in thousandths of the em. -/
structure Box where
  left : Int32
  bottom : Int32
  right : Int32
  top : Int32
  deriving DecidableEq

structure FontMetrics where
  unitsPerEm : UInt16
  glyphCount : UInt16
  bounds : Box
  ascent : Int32
  descent : Int32
  capHeight : Int32
  italicAngle : Binary64
  fixedPitch : Bool
  bold : Bool
  deriving DecidableEq

namespace Face

def scale (f : Face) (value : Int16) : Int32 :=
  toGlyphSpace value.toInt32 f.unitsPerEm

/-- The width of each glyph; one without an advance has none. -/
def widths (f : Face) : GlyphWidths :=
  ⟨((List.range f.glyphCount.toNat).map fun g =>
    let advance := (f.advance (UInt16.ofNat g)).getD 0
    (toGlyphSpace (Int32.ofNat advance.toNat) f.unitsPerEm).toUInt32).toArray⟩

/-- The metrics; capitals whose height is not known are as high as the ascent. -/
def metrics (f : Face) : FontMetrics :=
  let ascent := f.scale f.ascender
  { unitsPerEm := f.unitsPerEm
    glyphCount := f.glyphCount
    bounds := ⟨f.scale f.bounds.xMin, f.scale f.bounds.yMin, f.scale f.bounds.xMax,
      f.scale f.bounds.yMax⟩
    ascent
    descent := f.scale f.descender
    capHeight := (f.capHeight.map f.scale).getD ascent
    italicAngle := f.italicAngle
    fixedPitch := f.isMonospaced
    bold := f.isBold }

end Face

end FontSubset
