import FontSubset.CharacterMap.Subtable
import FontSubset.Sfnt.Directory

/-!
# Character maps

A font may map characters in several encodings. Kept are Mac Roman, Windows symbol, Windows
Unicode, and Windows Unicode in full; text is looked up in the one that fits the font.
-/

namespace FontSubset

structure CharacterMaps where
  /-- The Mac Roman subtable or, in a symbol font, the symbol subtable. -/
  byteEncoding : Option GlyphMap
  /-- The Unicode subtable for characters of the basic plane. -/
  unicode : Option GlyphMap
  /-- The Unicode subtable for all characters. -/
  unicodeFull : Option GlyphMap
  /-- Whether the font has codes of its own. -/
  fontSpecific : Bool
  /-- Whether the byte encoding is Mac Roman. -/
  macRoman : Bool

/-- A record of the table: an encoding and where its subtable lies within the table. -/
structure EncodingRecord where
  platform : UInt16
  encoding : UInt16
  offset : UInt32
  deriving DecidableEq

namespace EncodingRecord

def read (data : Bytes) (pos : Nat) : Except FontError EncodingRecord := do
  let platform ← data.u16At pos
  let encoding ← data.u16At (pos + 2)
  let offset ← data.u32At (pos + 4)
  return ⟨platform, encoding, offset⟩

/-- The records of the table that begins at `base`. -/
def readAll (data : Bytes) (base : Nat) : Except FontError (List EncodingRecord) := do
  let count ← data.u16At (base + 2)
  (List.range count.toNat).mapM fun i => read data (base + 4 + 8 * i)

/-- The offset in the last record of an encoding. -/
def offset? (records : List EncodingRecord) (platform encoding : UInt16) : Option Nat :=
  (records.reverse.find? fun r => r.platform = platform ∧ r.encoding = encoding).map
    (·.offset.toNat)

end EncodingRecord

namespace CharacterMaps

/-- The Unicode map that reaches furthest. -/
def unicodeMap (m : CharacterMaps) : Option GlyphMap :=
  m.unicodeFull.or m.unicode

/-- The byte that a code of a font-specific encoding stands for. -/
def byteOf? (code : UInt32) : Option UInt32 :=
  if code &&& 0xFFFFFF00 = 0 ∨ code &&& 0xFFFFFF00 = 0xF000 then some (code &&& 0xFF) else none

/-- The glyph that a character code is shown with. -/
def lookup (m : CharacterMaps) (code : UInt32) : Option GlyphMetric :=
  match m.unicodeFull with
  | some full => full[code]?
  | none =>
    if m.fontSpecific then do
      let map ← m.byteEncoding
      let byte ← byteOf? code
      map[byte]?
    else do
      let map ← m.unicode
      map[code]?

/-- For each glyph of the Unicode map the lowest code that leads to it. -/
def glyphToUnicode (m : CharacterMaps) : Std.TreeMap GlyphId UInt32 :=
  match m.unicodeMap with
  | some map => map.toList.foldl (fun inverse (code, metric) =>
      inverse.insertIfNew metric.glyph code) ∅
  | none => ∅

/-- Reads a subtable that has a record. -/
def readEncoding (data : Bytes) (base : Nat) (widths : GlyphWidths) (symbol : Bool) :
    Option Nat → Traced (Option GlyphMap)
  | some offset => GlyphMap.read data (base + offset) widths symbol
  | none => return none

def read (data : Bytes) (directory : Directory) (widths : GlyphWidths) : Traced CharacterMaps := do
  let table ← directory.require .characterMap
  let base := table.start
  let records ← EncodingRecord.readAll data base
  let roman := EncodingRecord.offset? records 1 0
  let symbol := EncodingRecord.offset? records 3 0
  let romanMap ← readEncoding data base widths false roman
  let unicode ← readEncoding data base widths false (EncodingRecord.offset? records 3 1)
  let symbolMap ← readEncoding data base widths true symbol
  let unicodeFull ← readEncoding data base widths false (EncodingRecord.offset? records 3 10)
  let byteEncoding := if symbol.isSome then symbolMap else romanMap
  -- A font with nothing but Mac Roman uses it as an encoding of its own.
  let romanOnly := unicode.isNone && unicodeFull.isNone && byteEncoding.isSome
  return {
    byteEncoding
    unicode
    unicodeFull
    fontSpecific := symbol.isSome || romanOnly
    macRoman := roman.isSome && symbol.isNone }

end CharacterMaps

end FontSubset
