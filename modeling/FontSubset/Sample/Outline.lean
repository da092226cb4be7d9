import FontSubset.Outline.Glyph
import FontSubset.Sample.Bytes

/-!
# Sample outlines

Glyphs of the two kinds, as short as they can be. Their length is even, so that a short location
table can tell where they are.
-/

namespace FontSubset.Sample

/-- A glyph of contours of one point each. -/
def simpleGlyph (contours : Int16) : Bytes :=
  let count := contours.toInt.toNat
  let head := [contours, 0, 0, contours * 10, contours * 20].map Int16.toUInt16
  even (Bytes.concat [fields16 head, fields16 ((List.range count).map UInt16.ofNat),
    fields16 [0], Array.replicate count 0x31])

/-- A record of a composite glyph. Its arguments and its transform are as long as the flags say. -/
def component (flags : UInt16) (glyph : GlyphId) : Bytes :=
  fields16 [flags, glyph] ++ Array.replicate (Component.trailing flags) 0x11

/-- The records of a composite glyph; all but the last say that another one follows. -/
def components : List (GlyphId × UInt16) → Bytes
  | [] => #[]
  | [(glyph, flags)] => component (flags &&& ~~~Component.moreFollow) glyph
  | (glyph, flags) :: rest => component (flags ||| Component.moreFollow) glyph ++ components rest

/-- A composite glyph of glyphs with the flags of their records. -/
def compositeGlyph (parts : List (GlyphId × UInt16)) : Bytes :=
  even (fields16 [0xFFFF, 0, 0, 0, 0] ++ components parts)

/-- Glyph 3 is composed of glyph 1, and glyph 0 is empty. -/
def nestedOutlines : Bytes :=
  Bytes.concat [simpleGlyph 1, simpleGlyph 2, compositeGlyph [(1, 0)]]

def nestedLocations : Locations :=
  ⟨.short, #[0, 0, 16, 34, 50]⟩

/-- Glyphs 1 and 2 both contain glyph 0, which glyph 2 also contains by way of glyph 1; glyphs 3 and
4 contain each other. -/
def sharedOutlines : Bytes :=
  Bytes.concat [simpleGlyph 1, compositeGlyph [(0, 0)], compositeGlyph [(0, 0), (1, 0)],
    compositeGlyph [(4, 0)], compositeGlyph [(3, 0)]]

def sharedLocations : Locations :=
  ⟨.short, #[0, 16, 32, 54, 70, 86]⟩

end FontSubset.Sample
