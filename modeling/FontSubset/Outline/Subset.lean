import FontSubset.Outline.Closure
import FontSubset.Sfnt.Assembly
import FontSubset.Sfnt.Collection

/-!
# Subsets

A subset of a font keeps the outlines of some glyphs and drops the others. Glyphs are not
renumbered: the location table stays as long as it was, and a glyph that is dropped gets an empty
span. All other tables are copied as they are.
-/

namespace FontSubset

/-- Which tables beside those needed to draw glyphs go into a subset. -/
structure SubsetOptions where
  /-- The character map, for use as a simple font. -/
  characterMap : Bool
  /-- The character map, the names and the platform metrics. -/
  extended : Bool
  deriving DecidableEq

namespace SubsetOptions

def minimal : SubsetOptions := ⟨false, false⟩

def all : SubsetOptions := ⟨true, true⟩

/-- The tables of a subset, in the order of their tags. -/
def tables (o : SubsetOptions) : List Tag :=
  (if o.extended then [Tag.platformMetrics] else []) ++
    (if o.extended ∨ o.characterMap then [Tag.characterMap] else []) ++
    [.controlValues, .fontProgram, .outlines, .header, .horizontalHeader, .horizontalMetrics,
      .locations, .profile] ++
    (if o.extended then [Tag.names] else []) ++ [.controlProgram]

end SubsetOptions

/-- The two tables that a subset does not copy. -/
structure RebuiltOutlines where
  outlines : Bytes
  locations : Locations

namespace RebuiltOutlines

/-- The bytes that entry `index` of the location table contributes: those of a retained glyph. -/
def piece (data : Bytes) (table : TableRecord) (locations : Locations) (retained : GlyphSet)
    (index : Nat) : Except FontError Bytes :=
  let glyph := UInt16.ofNat index
  if index < UInt16.size ∧ retained.contains glyph then
    match locations.span? glyph with
    | none => .error (.invalidFormat (.retainedOutsideLocations glyph))
    | some (start, stop) =>
      if stop < start then .error (.invalidFormat (.locationsDecrease glyph start stop))
      else if table.length < stop then
        .error (.invalidFormat (.glyphPastOutlines glyph stop table.length))
      else data.slice (table.start + start.toNat) (stop.toNat - start.toNat)
  else .ok #[]

/-- Where each of the pieces begins when they follow one another. -/
def starts (pieces : List Bytes) : Array UInt32 :=
  (pieces.foldl (fun (offsets, next) piece =>
    (offsets.push (UInt32.ofNat next), next + piece.size)) ((#[] : Array UInt32), 0)).1

end RebuiltOutlines

/-- The outlines of the retained glyphs one after another, and a location table of the same length
as before that says where they are. -/
def rebuildOutlines (data : Bytes) (table : TableRecord) (locations : Locations)
    (retained : GlyphSet) : Except FontError RebuiltOutlines := do
  let pieces ← (List.range locations.offsets.size).mapM
    (RebuiltOutlines.piece data table locations retained)
  return ⟨Bytes.concat pieces, ⟨locations.format, RebuiltOutlines.starts pieces⟩⟩

structure Subset where
  fontData : Bytes
  retained : GlyphSet
  /-- The number of glyphs, which is that of the font. -/
  glyphCount : Nat

namespace Subset

/-- The tables that are copied, those that the font has. -/
def copyTables (data : Bytes) (directory : Directory) (tags : List Tag) : Traced (List Table) := do
  let copied ← Traced.foldl (fun copied tag =>
    match directory.table? tag with
    | some r => return ⟨tag, r.checksum, ← r.body data⟩ :: copied
    | none => do
      Traced.report (.tableAbsent tag)
      return copied) [] tags
  return copied.reverse

/-- Whether a table is rebuilt rather than copied. -/
def isRebuilt (tag : Tag) : Bool :=
  tag = Tag.outlines ∨ tag = Tag.locations

def write (data : Bytes) (directory : Directory) (rebuilt : RebuiltOutlines)
    (options : SubsetOptions) : Traced Bytes := do
  let copied ← copyTables data directory (options.tables.filter fun tag => ¬ isRebuilt tag)
  return assemble (.ofBody .outlines rebuilt.outlines ::
    .ofBody .locations rebuilt.locations.toBytes :: copied)

/-- A subset of the font whose directory lies at `offset`. -/
def ofFontAt (data : Bytes) (offset : Nat) (used : GlyphSet) (options : SubsetOptions) :
    Traced Subset := do
  let directory ← Directory.read data offset
  if directory.flavor = .compact then throw (.invalidFormat .compactOutlines)
  let _ ← directory.require .header
  let locations ← Locations.read data directory
  let table ← directory.require .outlines
  let retained ← glyphClosure data table.start locations used
  let rebuilt ← rebuildOutlines data table locations retained
  let fontData ← write data directory rebuilt options
  Traced.report (.subsetWritten retained.size locations.count fontData.size)
  return ⟨fontData, retained, locations.count⟩

/-- A subset of a font file or of a member of a collection. -/
def ofFile (data : Bytes) (member : Option UInt32) (used : GlyphSet) (options : SubsetOptions) :
    Traced Subset := do
  ofFontAt data (← Collection.directoryOffset data member) used options

end Subset

end FontSubset
