import FontSubset.Face.Width
import FontSubset.Log
import Std.Data.TreeMap

/-!
# Subtables of a character map

Four formats assign glyphs to character codes: an array of 256 glyphs (format 0), segments of
codes (4), one run of codes (6), and groups of consecutive codes and glyphs (12). Each is read as a
list of assignments, of which the last one for a code counts.
-/

namespace FontSubset

/-- Character codes with their glyphs. -/
abbrev GlyphMap := Std.TreeMap UInt32 GlyphMetric

abbrev Assignment := UInt32 × GlyphId

namespace GlyphMap

def assign (widths : GlyphWidths) (map : GlyphMap) (assignments : List Assignment) : GlyphMap :=
  assignments.foldl (fun map (code, glyph) => map.insert code (widths.metric glyph)) map

def ofAssignments (widths : GlyphWidths) (assignments : List Assignment) : GlyphMap :=
  assign widths ∅ assignments

end GlyphMap

/-- Consecutive codes and their glyphs. -/
def consecutive (first : UInt32) (glyphs : List GlyphId) : List Assignment :=
  glyphs.mapIdx fun i glyph => (first + UInt32.ofNat i, glyph)

namespace ByteArrayMap

/-- Format 0: the glyphs of the codes 0 to 255. -/
def read (data : Bytes) (pos : Nat) : Except FontError (List Assignment) := do
  let glyphs ← data.numbersAt (pos + 6) 1 256
  return consecutive 0 (glyphs.map UInt16.ofNat)

end ByteArrayMap

namespace TrimmedMap

/-- Format 6: the glyphs of the codes from a first one on. -/
def read (data : Bytes) (pos : Nat) : Except FontError (List Assignment) := do
  let first ← data.u16At (pos + 6)
  let count ← data.u16At (pos + 8)
  let glyphs ← data.u16sAt (pos + 10) count.toNat
  return consecutive first.toUInt32 glyphs

end TrimmedMap

/-- A segment of a format 4 subtable. -/
structure Segment where
  first : UInt16
  last : UInt16
  delta : UInt16
  /-- Zero, or how far behind this field the glyph of the first code lies. -/
  rangeOffset : UInt16
  deriving DecidableEq

/-- A format 4 subtable. -/
structure SegmentMap where
  segments : List Segment
  glyphs : Array GlyphId

namespace SegmentMap

/-- The glyph of a code of segment `index`, which has a range offset or not. A code whose place
lies outside the glyph array has none. -/
def glyph? (m : SegmentMap) (index : Nat) (s : Segment) (code : Nat) : Option GlyphId :=
  if s.rangeOffset = 0 then some (UInt16.ofNat code + s.delta)
  else
    let place := index + s.rangeOffset.toNat / 2 + (code - s.first.toNat)
    if place < m.segments.length then none
    else (m.glyphs[place - m.segments.length]?).map fun g => if g = 0 then 0 else g + s.delta

/-- The codes of a segment. -/
def codes (s : Segment) : List Nat :=
  (List.range (s.last.toNat + 1 - s.first.toNat)).map (s.first.toNat + ·)

/-- What a segment assigns. In a symbol font the codes from F000 to F0FF stand for their low byte
as well. -/
def segmentAssignments (m : SegmentMap) (symbol : Bool) (index : Nat) (s : Segment) :
    List Assignment :=
  (codes s).flatMap fun code =>
    match m.glyph? index s code with
    | none => []
    | some glyph =>
      let low := if symbol ∧ code / 256 = 0xF0 then [(UInt32.ofNat (code % 256), glyph)] else []
      low ++ [(UInt32.ofNat code, glyph)]

def assignments (m : SegmentMap) (symbol : Bool) : List Assignment :=
  (m.segments.mapIdx fun index s => m.segmentAssignments symbol index s).flatten

def ofFields (firsts lasts deltas offsets glyphs : List UInt16) : SegmentMap :=
  let segments := (firsts.zip lasts).zip (deltas.zip offsets)
  ⟨segments.map fun ((first, last), (delta, offset)) => ⟨first, last, delta, offset⟩,
    glyphs.toArray⟩

/-- Format 4: four arrays with a field per segment, then the glyph array, which fills the rest of
the length that the subtable announces. -/
def read (data : Bytes) (pos : Nat) : Except FontError SegmentMap := do
  let length ← data.u16At (pos + 2)
  let doubled ← data.u16At (pos + 6)
  let count := doubled.toNat / 2
  let lasts ← data.u16sAt (pos + 14) count
  let firsts ← data.u16sAt (pos + 16 + 2 * count) count
  let deltas ← data.u16sAt (pos + 16 + 4 * count) count
  let offsets ← data.u16sAt (pos + 16 + 6 * count) count
  let glyphs ← data.u16sAt (pos + 16 + 8 * count) ((length.toNat - (16 + 8 * count)) / 2)
  return ofFields firsts lasts deltas offsets glyphs

end SegmentMap

/-- A group of a format 12 subtable. -/
structure Group where
  first : UInt32
  last : UInt32
  glyph : UInt32
  deriving DecidableEq

namespace Group

def read (data : Bytes) (pos : Nat) : Except FontError Group := do
  let first ← data.u32At pos
  let last ← data.u32At (pos + 4)
  let glyph ← data.u32At (pos + 8)
  return ⟨first, last, glyph⟩

def valid (g : Group) : Bool :=
  g.first ≤ g.last ∧ g.last ≤ 0x10FFFF

/-- The number of codes. -/
def size (g : Group) : Nat :=
  g.last.toNat + 1 - g.first.toNat

/-- The number of codes whose glyph is one of the 65536 that a font can have. -/
def mapped (g : Group) : Nat :=
  min g.size (UInt16.size - g.glyph.toNat)

def assignments (g : Group) : List Assignment :=
  (List.range g.mapped).map fun k =>
    (g.first + UInt32.ofNat k, UInt16.ofNat (g.glyph.toNat + k))

/-- Adds a group to the map; one that is invalid is left out, and so is the part of it past the
last glyph. -/
def addTo (widths : GlyphWidths) (map : GlyphMap) (g : Group) : Logged GlyphMap := do
  if ¬ g.valid then
    Logged.report (.groupInvalid g.first g.last)
    return map
  if g.mapped < g.size then Logged.report (.groupPastLastGlyph g.first)
  return map.assign widths g.assignments

/-- Format 12. -/
def readMap (data : Bytes) (pos : Nat) (widths : GlyphWidths) : Traced GlyphMap := do
  let count ← data.u32At (pos + 12)
  Traced.loop count.toNat ∅ fun map i => do
    let g ← read data (pos + 16 + 12 * i)
    Traced.ofLogged (g.addTo widths map)

end Group

namespace GlyphMap

/-- The subtable at `pos`, or nothing if its format is not one of the four. -/
def read (data : Bytes) (pos : Nat) (widths : GlyphWidths) (symbol : Bool) :
    Traced (Option GlyphMap) := do
  let format ← data.u16At pos
  let map ← match format with
    | 0 => some <$> ofAssignments widths <$> (ByteArrayMap.read data pos : Traced _)
    | 4 => (fun m => some (ofAssignments widths (m.assignments symbol))) <$>
        (SegmentMap.read data pos : Traced _)
    | 6 => some <$> ofAssignments widths <$> (TrimmedMap.read data pos : Traced _)
    | 12 => some <$> Group.readMap data pos widths
    | _ => pure none
  match map with
  | some map => Traced.report (.mapRead format map.size)
  | none => Traced.report (.mapFormatUnknown format)
  return map

end GlyphMap

end FontSubset
