import FontSubset.Provided.Face.Names
import FontSubset.Provided.Face.Tables

/-!
# Faces read from their tables
-/

namespace FontSubset.FaceTables

def toFace (f : FaceTables) : Face where
  unitsPerEm := f.unitsPerEm
  glyphCount := f.glyphCount
  advance := f.advance
  bounds := f.bounds
  ascender := f.fontAscender
  descender := f.fontDescender
  capHeight := f.capHeight?
  italicAngle := f.italicAngle
  isMonospaced := f.printing.any fun table => table.u32 12 ≠ 0
  isBold := f.platformMetrics.any isBold
  names := (f.names.map Names.entries).getD []

/-- The directory of a member of a file. -/
def directory (data : Bytes) (index : UInt32) : Except FontError Directory := do
  Directory.parse data (← Collection.directoryOffset data index)

def parse (data : Bytes) (index : UInt32) : Except FaceFault Face := do
  let directory ← (directory data index).mapError fun _ => .malformed
  return (← read data directory).toFace

instance parser : FaceParser where
  parse data index := (parse data index).mapError FaceFault.message

end FontSubset.FaceTables
