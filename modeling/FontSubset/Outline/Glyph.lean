import FontSubset.Outline.Locations

/-!
# Glyph records

A glyph is empty, or a set of contours, or a composite: a list of component records, each with the
flags that say how long it is and whether another one follows.
-/

namespace FontSubset

/-- One record of a composite glyph. -/
structure Component where
  flags : UInt16
  glyph : GlyphId
  deriving DecidableEq

namespace Component

def wordArguments : UInt16 := 0x0001
def offsetArguments : UInt16 := 0x0002
def roundedToGrid : UInt16 := 0x0004
def oneScale : UInt16 := 0x0008
def moreFollow : UInt16 := 0x0020
def twoScales : UInt16 := 0x0040
def matrix : UInt16 := 0x0080
def instructions : UInt16 := 0x0100
def usesMetrics : UInt16 := 0x0200
def overlaps : UInt16 := 0x0400
def scaledOffset : UInt16 := 0x0800
def unscaledOffset : UInt16 := 0x1000

def knownFlags : UInt16 :=
  wordArguments ||| offsetArguments ||| roundedToGrid ||| oneScale ||| moreFollow ||| twoScales |||
    matrix ||| instructions ||| usesMetrics ||| overlaps ||| scaledOffset ||| unscaledOffset

def has (flags flag : UInt16) : Bool :=
  flags &&& flag ≠ 0

/-- How many of the three kinds of transforms the flags announce. -/
def transforms (flags : UInt16) : Nat :=
  [oneScale, twoScales, matrix].countP (has flags)

/-- Whether the size of a record with these flags is known: no flag is unknown, and at most one
transform is announced. -/
def supported (flags : UInt16) : Bool :=
  flags &&& ~~~knownFlags = 0 ∧ transforms flags ≤ 1

/-- The size of the arguments and the transform, which follow the flags and the glyph. -/
def trailing (flags : UInt16) : Nat :=
  (if has flags wordArguments then 4 else 2) +
    if has flags oneScale then 2
    else if has flags twoScales then 4
    else if has flags matrix then 8
    else 0

/-- The records from `pos` on. Each of them has at least four bytes of data, which bounds their
number. -/
def readAll (data : Bytes) (glyph : GlyphId) (pos : Nat) : Except FontError (List Component) :=
  match data.u16At pos with
  | .error e => .error e
  | .ok flags =>
    if h : pos + 4 ≤ data.size then
      let component := UInt16.ofNat (data.number (pos + 2) 2)
      if ¬ supported flags then .error (.unsupportedComposite glyph flags)
      else if has flags moreFollow then
        (readAll data glyph (pos + 4 + trailing flags)).map (⟨flags, component⟩ :: ·)
      else .ok [⟨flags, component⟩]
    else .error (.endOfData (pos + 2) 2)
termination_by data.size - pos

end Component

/-- What a glyph is made of. -/
inductive Glyph
  | empty
  | simple (contours : Nat)
  | composite (components : List Component)
  deriving DecidableEq

namespace Glyph

/-- The size of the contour count and of the bounding box, which follows it. -/
def headSize : Nat := 10

/-- The glyph whose bytes begin at `pos`. -/
def readAt (data : Bytes) (glyph : GlyphId) (pos : Nat) : Except FontError Glyph := do
  let contours ← data.u16At pos
  if contours < 0x8000 then return .simple contours.toNat
  return .composite (← Component.readAll data glyph (pos + headSize))

/-- A glyph of the outline table that begins at `outlines`. -/
def read (data : Bytes) (outlines : Nat) (locations : Locations) (glyph : GlyphId) :
    Except FontError Glyph :=
  match locations.span? glyph with
  | none => .error (.invalidFormat (.glyphOutsideLocations glyph locations.count))
  | some (start, stop) =>
    if start = stop then .ok .empty
    else if stop < start then .error (.invalidFormat (.locationsDecrease glyph start stop))
    else readAt data glyph (outlines + start.toNat)

/-- The glyphs that a glyph is directly composed of. -/
def components : Glyph → List GlyphId
  | composite records => records.map (·.glyph)
  | _ => []

end Glyph

end FontSubset
