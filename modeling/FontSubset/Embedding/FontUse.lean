import FontSubset.Embedding.Descriptor
import FontSubset.Embedding.SubsetName
import FontSubset.Embedding.ToUnicode
import FontSubset.Embedding.WidthArray
import FontSubset.Shaping.Typesetter

/-!
# Use of a font

What a document does with one font: it writes text, which gives the bytes of strings to be shown,
and marks glyphs that it places by number. Every glyph is kept with its width and its first text.
In the end `embed` makes of it all what the objects of the font need.
-/

namespace FontSubset

/-- The contents of the objects of a font in a PDF file. -/
structure Embedding where
  /-- The name of the font; that of a subset begins with six letters. -/
  fontName : String
  fontData : Bytes
  isSubset : Bool
  /-- The width array, if a glyph does not have the default width. -/
  widths : Option String
  /-- The code map to text, if a glyph stands for text. -/
  toUnicode : Option String
  descriptor : Descriptor
  deriving DecidableEq

structure FontUse where
  typesetter : Typesetter
  used : UsedGlyphs
  /-- Whether only the used glyphs are to be embedded. -/
  asSubset : Bool
  options : SubsetOptions

namespace FontUse

/-- The use of a font that no document has used yet. -/
def ofFont (font : Font) (asSubset : Bool) (options : SubsetOptions) : Logged FontUse := do
  return ⟨← Typesetter.ofFont font, ∅, asSubset, options⟩

def font (u : FontUse) : Font :=
  u.typesetter.font

def usedGlyph (g : GlyphInfo) : UsedGlyph :=
  ⟨g.code, g.width, g.characters⟩

/-- The bytes that show a text, two for each glyph. -/
def write [ScriptTable] (u : FontUse) (text : String) : Logged (Bytes × FontUse) := do
  let glyphs ← u.typesetter.glyphs text
  return (Bytes.concat (glyphs.map fun g => be16 g.code),
    { u with used := u.used.noteAll (glyphs.map usedGlyph) })

/-- Whether the font has a glyph of that number. -/
def inFont (u : FontUse) (glyph : GlyphId) : Bool :=
  glyph < u.font.metrics.glyphCount

/-- Marks glyphs as used. Those that the font does not have are left out with a warning. -/
def mark (u : FontUse) (glyphs : List GlyphId) : Logged FontUse := do
  (glyphs.filter (¬ u.inFont ·)).forM fun glyph =>
    Logged.report (.glyphOutsideFont glyph u.font.glyphCount)
  let known := (glyphs.filter u.inFont).map fun glyph => ⟨glyph, u.font.width glyph, ""⟩
  return { u with used := u.used.noteAll known }

/-- The used glyphs as a set. -/
def glyphSet (u : FontUse) : GlyphSet :=
  Std.TreeSet.ofList u.used.keys

/-- The bytes of the font to be embedded, and what its name begins with. -/
def program (u : FontUse) : Traced (Bytes × String) := do
  if u.asSubset then
    let subset ← u.font.subset u.glyphSet u.options
    return (subset.fontData, SubsetName.tagOf subset.retained.toList)
  else return (← u.font.standalone, "")

def embed (u : FontUse) : Traced Embedding := do
  let (fontData, mark) ← u.program
  let embedding : Embedding := {
    fontName := mark ++ u.font.name
    fontData
    isSubset := u.asSubset
    widths := widthArray (WidthRun.ofGlyphs u.used.values)
    toUnicode := ToUnicode.ofGlyphs u.used.values
    descriptor := .ofFont u.font }
  Traced.report (.fontEmbedded embedding.fontName u.used.size fontData.size)
  return embedding

end FontUse

end FontSubset
