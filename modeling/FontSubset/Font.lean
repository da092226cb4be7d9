import FontSubset.CharacterMap.Basic
import FontSubset.Face.Metrics
import FontSubset.Face.Name
import FontSubset.Outline.Subset
import FontSubset.Substitution.Composite

/-!
# Fonts

A font that has been read: its tables, metrics, character maps and substitutions, with the file
that they come from, which is needed again for subsets.
-/

namespace FontSubset

structure Font where
  data : Bytes
  directory : Directory
  /-- Whether the file is a collection. -/
  inCollection : Bool
  metrics : FontMetrics
  widths : GlyphWidths
  characterMaps : CharacterMaps
  substitutions : Option Substitutions
  name : String

namespace Font

/-- The tables without which a font is of no use, in the order in which they are looked for. -/
def requiredTables : List Tag :=
  [.header, .horizontalHeader, .horizontalMetrics, .profile, .characterMap]

def checkTables (directory : Directory) : Except FontError Unit :=
  requiredTables.forM fun tag => do
    let _ ← directory.require tag

/-- The face of a font file or of a member of a collection. -/
def readFace [FaceParser] (data : Bytes) (member : Option UInt32) : Except FontError Face :=
  (FaceParser.parse data (member.getD 0)).mapError fun detail =>
    .invalidFormat (.unreadableMetrics detail)

/-- Reads a font file or a member of a collection. -/
def load [FaceParser] (data : Bytes) (member : Option UInt32) : Traced Font := do
  let inCollection ← Collection.isCollection data
  let offset ← Collection.directoryOffset data member
  let directory ← Directory.read data offset
  checkTables directory
  let face ← readFace data member
  let widths := face.widths
  let name := face.postScriptName
  let characterMaps ← CharacterMaps.read data directory widths
  let substitutions ← Substitutions.read data directory characterMaps.glyphToUnicode widths
  Traced.report (.fontLoaded name directory.size face.glyphCount.toNat face.unitsPerEm.toNat)
  return ⟨data, directory, inCollection, face.metrics, widths, characterMaps, substitutions, name⟩

def glyphCount (f : Font) : Nat :=
  f.metrics.glyphCount.toNat

/-- The glyph and the width for a character code. -/
def metric? (f : Font) (code : UInt32) : Option GlyphMetric :=
  f.characterMaps.lookup code

def width (f : Font) (glyph : GlyphId) : UInt32 :=
  f.widths.width glyph

def subset (f : Font) (used : GlyphSet) (options : SubsetOptions) : Traced Subset :=
  Subset.ofFontAt f.data f.directory.offset used options

/-- All glyphs of the font. -/
def allGlyphs (f : Font) : GlyphSet :=
  Std.TreeSet.ofList ((List.range f.glyphCount).map UInt16.ofNat)

/-- The font as a file of its own: the file as it is or, for a member of a collection, a subset
that keeps every glyph. -/
def standalone (f : Font) : Traced Bytes := do
  if f.inCollection then return (← f.subset f.allGlyphs .all).fontData
  else return f.data

end Font

end FontSubset
