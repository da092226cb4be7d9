import FontSubset.Face.Basic
import FontSubset.Sfnt.Collection
import FontSubset.Sfnt.Directory

/-!
# Tables of a face

The tables that metrics and names are read from. The header, the horizontal header and the profile
must be well formed; the others count as absent where they are not.
-/

namespace FontSubset

/-- Why a face cannot be read. -/
inductive FaceFault
  | malformed
  | badHeader
  | badHorizontalHeader
  | badProfile
  deriving DecidableEq

def FaceFault.message : FaceFault → String
  | .malformed => "malformed font"
  | .badHeader => "the head table is missing or malformed"
  | .badHorizontalHeader => "the hhea table is missing or malformed"
  | .badProfile => "the maxp table is missing or malformed"

/-- What the three tables that a face must have say, and the others that it has. -/
structure FaceTables where
  unitsPerEm : UInt16
  bounds : Bounds
  ascender : Int16
  descender : Int16
  /-- The number of glyphs with an advance of their own. -/
  advanceCount : UInt16
  glyphCount : UInt16
  horizontalMetrics : Option Bytes
  printing : Option Bytes
  platformMetrics : Option Bytes
  names : Option Bytes

namespace FaceTables

def signed (data : Bytes) (pos : Nat) : Int16 :=
  (data.u16 pos).toInt16

/-- The bytes of a table that lies within the file. -/
def table? (data : Bytes) (directory : Directory) (tag : Tag) : Option Bytes := do
  let r ← directory.table? tag
  (r.body data).toOption

/-- In a collection, the list of offsets must be complete and the member must lie behind it. -/
def collectionValid (data : Bytes) (directory : Directory) : Bool :=
  if data.u32 0 = Tag.collection.code then
    let offsetsEnd := 12 + 4 * (data.u32 8).toNat
    offsetsEnd ≤ data.size ∧ offsetsEnd ≤ directory.offset
  else true

def headerValid (table : Bytes) : Bool :=
  54 ≤ table.size ∧ 16 ≤ table.u16 18 ∧ table.u16 18 ≤ 16384 ∧ table.u16 50 ≤ 1

def horizontalHeaderValid (table : Bytes) : Bool :=
  36 ≤ table.size

def profileValid (table : Bytes) : Bool :=
  6 ≤ table.size ∧ (table.u32 0 = 0x00005000 ∨ table.u32 0 = 0x00010000) ∧ table.u16 4 ≠ 0

/-- The size that a version of the platform metrics calls for. -/
def platformMetricsSize? (version : UInt16) : Option Nat :=
  match version with
  | 0 => some 78
  | 1 => some 86
  | 2 | 3 | 4 => some 96
  | 5 => some 100
  | _ => none

def platformMetricsValid (table : Bytes) : Bool :=
  2 ≤ table.size ∧ (platformMetricsSize? (table.u16 0)).any (· ≤ table.size)

/-- Version 2 has a list of glyph names at its end, of which the indexes must be there. -/
def printingValid (table : Bytes) : Bool :=
  let version := table.u32 0
  32 ≤ table.size ∧
    (version = 0x00010000 ∨ version = 0x00025000 ∨ version = 0x00030000 ∨ version = 0x00040000 ∨
      (version = 0x00020000 ∧ 34 ≤ table.size ∧ 34 + 2 * (table.u16 32).toNat ≤ table.size))

/-- There must be an advance to be shared by the glyphs that have none of their own. -/
def horizontalMetricsValid (advanceCount : UInt16) (table : Bytes) : Bool :=
  advanceCount ≠ 0 ∧ 4 * advanceCount.toNat ≤ table.size

def read (data : Bytes) (directory : Directory) : Except FaceFault FaceTables := do
  if ¬ collectionValid data directory then throw .malformed
  let header := (table? data directory .header).getD #[]
  if ¬ headerValid header then throw .badHeader
  let horizontal := (table? data directory .horizontalHeader).getD #[]
  if ¬ horizontalHeaderValid horizontal then throw .badHorizontalHeader
  let profile := (table? data directory .profile).getD #[]
  if ¬ profileValid profile then throw .badProfile
  let advanceCount := horizontal.u16 34
  return {
    unitsPerEm := header.u16 18
    bounds := ⟨signed header 36, signed header 38, signed header 40, signed header 42⟩
    ascender := signed horizontal 4
    descender := signed horizontal 6
    advanceCount
    glyphCount := profile.u16 4
    horizontalMetrics :=
      (table? data directory .horizontalMetrics).filter (horizontalMetricsValid advanceCount)
    printing := (table? data directory .printing).filter printingValid
    platformMetrics := (table? data directory .platformMetrics).filter platformMetricsValid
    names := table? data directory .names }

/-- The advance of a glyph; from some glyph on all have the same. -/
def advance (f : FaceTables) (glyph : GlyphId) : Option UInt16 :=
  f.horizontalMetrics.map fun table => table.u16 (4 * min glyph.toNat (f.advanceCount.toNat - 1))

/-! ## Measures -/

/-- Bits of the platform metrics that say how a font is to be used. -/
def selection (platform : Bytes) : UInt16 :=
  platform.u16 62

def isBold (platform : Bytes) : Bool :=
  selection platform &&& 0x0020 ≠ 0

/-- Whether the typographic measures come before those of the horizontal header. -/
def prefersTypographic (platform : Bytes) : Bool :=
  4 ≤ platform.u16 0 ∧ selection platform &&& 0x0080 ≠ 0

/-- A vertical measure: the typographic one where the font prefers it, else that of the horizontal
header, and where this is zero, the typographic one or, if that is zero too, the one of the
clipping region. -/
def vertical (platform : Option Bytes) (horizontal : Int16) (typographic clipping : Bytes → Int16) :
    Int16 :=
  match platform with
  | none => horizontal
  | some table =>
    if prefersTypographic table then typographic table
    else if horizontal ≠ 0 then horizontal
    else if typographic table ≠ 0 then typographic table
    else clipping table

def fontAscender (f : FaceTables) : Int16 :=
  vertical f.platformMetrics f.ascender (signed · 68) (signed · 74)

def fontDescender (f : FaceTables) : Int16 :=
  vertical f.platformMetrics f.descender (signed · 70) fun table => -signed table 76

/-- The height of capitals, which the platform metrics give from version 2 on. -/
def capHeight? (f : FaceTables) : Option Int16 :=
  (f.platformMetrics.filter fun table => 2 ≤ table.u16 0).map (signed · 88)

/-- The slant in degrees: a 16.16 number, read with the 24 significant bits of a single-precision
number. -/
def italicAngle (f : FaceTables) : Binary64 :=
  match f.printing with
  | none => .zero
  | some table =>
    let fixed := (table.u32 4).toInt32.toInt
    .nearest (fixed < 0) (roundedToBits 24 fixed.natAbs) UInt16.size

end FaceTables

end FontSubset
