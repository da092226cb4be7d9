import FontSubset.Sfnt.Directory

/-!
# Glyph locations

The location table gives the offset of every glyph within the outline table, and one offset more
for the end of the last glyph. It has two formats: short entries hold half the offset.
-/

namespace FontSubset

namespace LocationFormat

def entrySize : LocationFormat → Nat
  | .short => 2
  | .long => 4

/-- Where the header table says which format is used: the low byte of a 16-bit field. -/
def headerField : Nat := 51

def read (data : Bytes) (directory : Directory) : Except FontError LocationFormat := do
  let header ← directory.require Tag.header
  let flag ← data.u8At (header.start + headerField)
  return if flag = 0 then .short else .long

end LocationFormat

structure Locations where
  format : LocationFormat
  /-- Offsets in bytes, whatever the format. -/
  offsets : Array UInt32
  deriving DecidableEq

namespace Locations

/-- The offsets that `count` entries at `pos` stand for. -/
def entries (data : Bytes) (format : LocationFormat) (pos count : Nat) :
    Except FontError (List UInt32) :=
  match format with
  | .short => (data.u16sAt pos count).map (·.map fun half => half.toUInt32 * 2)
  | .long => data.u32sAt pos count

def parse (data : Bytes) (directory : Directory) : Except FontError Locations := do
  let format ← LocationFormat.read data directory
  let table ← directory.require Tag.locations
  let offsets ← entries data format table.start (table.length.toNat / format.entrySize)
  return ⟨format, offsets.toArray⟩

def read (data : Bytes) (directory : Directory) : Traced Locations := do
  let locations ← parse data directory
  Traced.report (.locationsRead locations.format locations.offsets.size)
  return locations

/-- The number of glyphs: one less than the number of offsets, which mark their ends. -/
def count (l : Locations) : Nat :=
  l.offsets.size - 1

/-- Where a glyph begins and ends within the outline table. -/
def span? (l : Locations) (glyph : GlyphId) : Option (UInt32 × UInt32) := do
  let start ← l.offsets[glyph.toNat]?
  let stop ← l.offsets[glyph.toNat + 1]?
  return (start, stop)

/-- The table in its format. A short entry keeps the lower sixteen bits of half the offset. -/
def toBytes (l : Locations) : Bytes :=
  Bytes.concat (l.offsets.toList.map fun offset =>
    match l.format with
    | .short => be16 (offset / 2).toUInt16
    | .long => be32 offset)

theorem span?_isSome {l : Locations} {glyph : GlyphId} :
    (l.span? glyph).isSome ↔ glyph.toNat < l.count := by
  simp only [span?, count, Option.bind_eq_bind, Option.isSome_bind, Option.pure_def]
  rcases h : l.offsets[glyph.toNat]? with _ | start
  · have := Array.getElem?_eq_none_iff.1 h
    simp; omega
  · have := (Array.getElem?_eq_some_iff.1 h).1
    rcases h' : l.offsets[glyph.toNat + 1]? with _ | stop
    · have := Array.getElem?_eq_none_iff.1 h'
      simp; omega
    · have := (Array.getElem?_eq_some_iff.1 h').1
      simp; omega

end Locations

end FontSubset
