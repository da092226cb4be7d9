import FontSubset.Error
import Std.Data.TreeMap

/-!
# Used glyphs

The glyphs that a document has drawn. Where a glyph occurs several times, its first occurrence
counts.
-/

namespace FontSubset

/-- A glyph that has been drawn, with the text that it stood for; the text is empty where the
glyph was placed by its number. -/
structure UsedGlyph where
  glyph : GlyphId
  width : UInt32
  text : String
  deriving DecidableEq

/-- Used glyphs by their number. -/
abbrev UsedGlyphs := Std.TreeMap GlyphId UsedGlyph

namespace UsedGlyphs

def note (used : UsedGlyphs) (g : UsedGlyph) : UsedGlyphs :=
  used.insertIfNew g.glyph g

def noteAll (used : UsedGlyphs) (glyphs : List UsedGlyph) : UsedGlyphs :=
  glyphs.foldl note used

def ofList (glyphs : List UsedGlyph) : UsedGlyphs :=
  noteAll ∅ glyphs

end UsedGlyphs

end FontSubset
