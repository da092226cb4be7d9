import FontSubset.Sample.CharacterMap
import FontSubset.Sample.Outline
import FontSubset.Sample.Substitution
import FontSubset.Shaping.Language
import FontSubset.Text.Utf16

/-!
# Sample fonts

Small fonts to try the library on, made from a description of their parts. The file is laid out
without the functions that write subsets, so that each of the two can be checked against the other.
-/

namespace FontSubset.Sample

/-! ## Files -/

/-- The word that begins at `pos`, filled up with zeros behind the end of the data. -/
def wordAt (data : Bytes) (pos : Nat) : UInt32 :=
  let bytes := (data.extract pos (pos + 4)).toList
  UInt32.ofNat (bigEndian (bytes ++ List.replicate (4 - bytes.length) 0))

/-- The sum of the words of a table. -/
def checksum (data : Bytes) : UInt32 :=
  (List.range ((data.size + 3) / 4)).foldl (fun sum i => sum + wordAt data (4 * i)) 0

/-- The bytes, filled up with zeros to a whole number of words. -/
def aligned (data : Bytes) : Bytes :=
  data ++ zeros ((4 - data.size % 4) % 4)

/-- A font file of some tables, sorted by their tags. -/
def fontFile (tables : List (Tag × Bytes)) : Bytes :=
  let sorted := tables.mergeSort fun a b => a.1.code ≤ b.1.code
  let bodies := sorted.map fun (_, body) => aligned body
  let count := UInt16.ofNat sorted.length
  let power : UInt16 := 1 <<< selector count
  let head := be32 0x00010000 ++
    fields16 [count, power * 16, selector count, (count - power) * 16]
  let records := List.zipWith (fun (tag, body) place => fields32 [tag.code, checksum body,
    UInt32.ofNat place, UInt32.ofNat body.size]) sorted
    (offsets (12 + 16 * sorted.length) bodies)
  Bytes.concat (head :: records ++ bodies)

/-! ## Tables -/

/-- A table of zeros but for some fields of two bytes. -/
def tableOf (size : Nat) (fields : List (Nat × UInt16)) : Bytes :=
  fields.foldl (fun table (pos, value) =>
    (table.setIfInBounds pos (value >>> 8).toUInt8).setIfInBounds (pos + 1) value.toUInt8)
    (zeros size)

def signed (value : Int16) : UInt16 :=
  value.toUInt16

def header (unitsPerEm : UInt16) (shortLocations : Bool) : Bytes :=
  tableOf 54 [(0, 1), (12, 0x5F0F), (14, 0x3CF5), (18, unitsPerEm), (36, signed (-50)),
    (38, signed (-210)), (40, 950), (42, 890), (50, if shortLocations then 0 else 1)]

def horizontalHeader (ascender descender : Int16) (advanceCount : UInt16) : Bytes :=
  tableOf 36 [(0, 1), (4, signed ascender), (6, signed descender), (34, advanceCount)]

def profile (glyphCount : UInt16) : Bytes :=
  tableOf 32 [(0, 1), (4, glyphCount)]

/-- Advances with a bearing of zero; glyphs past the last advance have a bearing only. -/
def horizontalMetrics (advances : List UInt16) (glyphCount : Nat) : Bytes :=
  fields16 (advances.flatMap fun advance => [advance, 0]) ++
    zeros (2 * (glyphCount - advances.length))

def printing (italicAngle : Int16) (fixedPitch : Bool) : Bytes :=
  tableOf 32 [(0, 3), (4, signed italicAngle), (14, if fixedPitch then 1 else 0)]

/-- An entry of a name table. -/
structure NameRecord where
  platform : UInt16
  encoding : UInt16
  language : UInt16
  kind : UInt16
  bytes : Bytes

def nameTable (records : List NameRecord) : Bytes :=
  let strings := records.map (·.bytes)
  let heads := List.zipWith (fun (r : NameRecord) place => fields16
    [r.platform, r.encoding, r.language, r.kind, size16 r.bytes, place]) records
    (offsets16 0 strings)
  let count := UInt16.ofNat records.length
  Bytes.concat (fields16 [0, count, 6 + 12 * count] :: heads ++ strings)

/-! ## Fonts -/

/-- What a font is made of. -/
structure FontParts where
  glyphs : List Bytes
  /-- The advances; glyphs past the last one have its advance. -/
  advances : Option (List UInt16)
  unitsPerEm : UInt16
  shortLocations : Bool
  characterMap : Option Bytes
  /-- Further tables. -/
  extra : List (Tag × Bytes)
  /-- Tables that are left out. -/
  removed : List Tag
  ascender : Int16
  descender : Int16
  italicAngle : Int16
  fixedPitch : Bool
  name : Option String

namespace FontParts

/-- A font without glyphs. -/
def empty : FontParts where
  glyphs := []
  advances := none
  unitsPerEm := 1000
  shortLocations := false
  characterMap := none
  extra := []
  removed := []
  ascender := 800
  descender := -200
  italicAngle := 0
  fixedPitch := false
  name := none

/-- A character map with a Windows Unicode subtable. -/
def unicodeMap (map : List (UInt16 × GlyphId)) : Bytes :=
  Sample.characterMap [(3, 1, segmentMap map)]

/-- The location table of the glyphs, with the end of the last one. -/
def locations (f : FontParts) : Bytes :=
  let places := offsets 0 (f.glyphs ++ [#[]])
  if f.shortLocations then fields16 (places.map fun place => UInt16.ofNat (place / 2))
  else fields32 (places.map UInt32.ofNat)

def advanceList (f : FontParts) : List UInt16 :=
  f.advances.getD (List.replicate (max f.glyphs.length 1) 500)

/-- A name table with a PostScript name. -/
def names (name : String) : Bytes :=
  nameTable [⟨3, 1, 0x0409, 6, (Utf16.toBytes (Utf16.encode name.toList)).toArray⟩]

def tables (f : FontParts) : List (Tag × Bytes) :=
  [(.header, header f.unitsPerEm f.shortLocations),
    (.horizontalHeader, horizontalHeader f.ascender f.descender (UInt16.ofNat f.advanceList.length)),
    (.profile, profile (UInt16.ofNat f.glyphs.length)),
    (.horizontalMetrics, Sample.horizontalMetrics f.advanceList f.glyphs.length),
    (.characterMap, f.characterMap.getD (unicodeMap [])),
    (.printing, Sample.printing f.italicAngle f.fixedPitch),
    (.locations, f.locations),
    (.outlines, Bytes.concat f.glyphs)] ++
    f.name.toList.map (fun name => (.names, names name)) ++ f.extra

/-- The file of the font. -/
def toBytes (f : FontParts) : Bytes :=
  fontFile (f.tables.filter fun (tag, _) => tag ∉ f.removed)

end FontParts

/-- The tables that glyphs are found with, without checksums. -/
def nestedFont : Bytes :=
  Bytes.concat [fields32 [0x00010000, 0x00030020, 0x00010010],
    fields32 [Tag.outlines.code, 0, 60, 50],
    fields32 [Tag.header.code, 0, 112, 54],
    fields32 [Tag.locations.code, 0, 168, 10],
    nestedOutlines, zeros 2, zeros 56, nestedLocations.toBytes]

/-- A collection of two fonts, of which the second one is `nestedFont`; the first one is missing. -/
def nestedCollection : Bytes :=
  joined [fields32 [Tag.collection.code, 0x00010000, 2, 0xFFFFFFFF, 24, 0],
    fields32 [0x00010000, 0x00030020, 0x00010010],
    fields32 [Tag.outlines.code, 0, 84, 50],
    fields32 [Tag.header.code, 0, 136, 54],
    fields32 [Tag.locations.code, 0, 192, 10],
    nestedOutlines, zeros 2, zeros 56, nestedLocations.toBytes, fields16 [0xFFFF]]

def nestedTable : TableRecord :=
  ⟨.outlines, 0, 60, 50⟩

/-- The tables that every font needs, without checksums. Two characters are mapped to glyphs. -/
def mappedFont : Bytes :=
  Bytes.concat [fields32 [0x00010000, 0x00050040, 0x00020010],
    fields32 [Tag.characterMap.code, 0, 92, 26],
    fields32 [Tag.header.code, 0, 120, 54],
    fields32 [Tag.horizontalHeader.code, 0, 176, 36],
    fields32 [Tag.horizontalMetrics.code, 0, 212, 12],
    fields32 [Tag.profile.code, 0, 224, 32],
    characterMap [(3, 1, trimmedMap 0x41 [1, 2])], zeros 2,
    header 1000 true, zeros 2, horizontalHeader 800 (-200) 3,
    horizontalMetrics [500, 600, 700] 3, profile 3]

/-- A font with outlines and a character map. Of two letters one is mapped to a composite. -/
def letterFont : Bytes :=
  joined [fields32 [0x00010000, 0x00070040, 0x00020030],
    fields32 [Tag.characterMap.code, 0, 124, 26],
    fields32 [Tag.outlines.code, 0, 152, 50],
    fields32 [Tag.header.code, 0, 204, 54],
    fields32 [Tag.horizontalHeader.code, 0, 260, 36],
    fields32 [Tag.horizontalMetrics.code, 0, 296, 16],
    fields32 [Tag.locations.code, 0, 312, 10],
    fields32 [Tag.profile.code, 0, 324, 32],
    characterMap [(3, 1, trimmedMap 0x41 [1, 3])], zeros 2,
    nestedOutlines, zeros 2, header 1000 true, zeros 2, horizontalHeader 800 (-200) 4,
    horizontalMetrics [500, 600, 700, 1000] 4, nestedLocations.toBytes, zeros 2, profile 4]

/-- A table with a single ligature, glyph 7 for the glyphs 1, 2 and 3. -/
def bengaliSubstitutions : Bytes :=
  joined [fields16 [1, 0, 10, 30, 44], scriptList Language.bengaliTag, featureList 1,
    fields16 [1, 4, 4, 0, 1, 8], fields16 [1, 20, 1, 8, 1, 4, 7, 3, 2, 3], fields16 [1, 1, 1]]

/-- A font for Bengali: glyph 7 is the ligature of the glyphs 1, 2 and 3, glyph 6 a vowel sign of
which glyphs 4 and 5 are the halves. -/
def bengaliFont : Bytes :=
  joined [fields32 [0x00010000, 0x00060040, 0x00020020],
    fields32 [Tag.substitutions.code, 0, 108, 82],
    fields32 [Tag.characterMap.code, 0, 192, 100],
    fields32 [Tag.header.code, 0, 292, 54],
    fields32 [Tag.horizontalHeader.code, 0, 348, 36],
    fields32 [Tag.horizontalMetrics.code, 0, 384, 32],
    fields32 [Tag.profile.code, 0, 416, 32],
    bengaliSubstitutions, zeros 2,
    characterMap [(3, 10, groupMap [(0x0995, 0x0995, 1), (0x09B7, 0x09B7, 3),
      (0x09BE, 0x09BE, 5), (0x09C7, 0x09C7, 4), (0x09CB, 0x09CB, 6), (0x09CD, 0x09CD, 2)])],
    header 1000 true, zeros 2, horizontalHeader 800 (-200) 8,
    horizontalMetrics [0, 500, 0, 450, 300, 250, 550, 800] 8, profile 8]

/-! ## Looking into files -/

/-- Where the first record of a table lies in a font file. -/
def findRecord? (file : Bytes) (tag : Tag) : Option Nat :=
  ((List.range (file.u16 4).toNat).map fun i => 12 + 16 * i).find? fun pos =>
    file.u32 pos = tag.code

/-- The offset and the length of a table. -/
def findTable? (file : Bytes) (tag : Tag) : Option (UInt32 × UInt32) :=
  (findRecord? file tag).map fun pos => (file.u32 (pos + 8), file.u32 (pos + 12))

/-- The checksum in the record of a table. -/
def recordedChecksum? (file : Bytes) (tag : Tag) : Option UInt32 :=
  (findRecord? file tag).map fun pos => file.u32 (pos + 4)

/-- The bytes of a glyph, found by way of the location table. -/
def glyphBytes? (file : Bytes) (glyph : Nat) : Option Bytes := do
  let (headerPlace, _) ← findTable? file .header
  let (locations, _) ← findTable? file .locations
  let (outlines, _) ← findTable? file .outlines
  let isShort := file.number (headerPlace.toNat + 51) 1 = 0
  let place (index : Nat) : Nat :=
    if isShort then 2 * file.number (locations.toNat + 2 * index) 2
    else file.number (locations.toNat + 4 * index) 4
  return file.extract (outlines.toNat + place glyph) (outlines.toNat + place (glyph + 1))

end FontSubset.Sample
